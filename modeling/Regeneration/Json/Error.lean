/-!
# What can be wrong with a JSON text

A text is refused at its first problem. The problem is of one of three
categories: the text ended too early, it is not JSON (or goes beyond what is
read), or it is JSON of another shape than wanted. Most problems have a position,
a line and a column counted in bytes; a problem found while interpreting values
that were read before has none of its own.
-/

set_option autoImplicit false

namespace Regeneration.Json

/-- The three categories of problems. -/
inductive Category where
  | eof
  | syntaxError
  | data
  deriving DecidableEq, Repr

/-- The category's name. -/
def Category.name : Category → String
  | .eof => "eof"
  | .syntaxError => "syntax"
  | .data => "data"

/-- The problems. -/
inductive Cause where
  | endInValue
  | endInString
  | endInList
  | endInObject
  | expectedValue
  | expectedIdent
  | expectedColon
  | expectedListEnd
  | expectedObjectEnd
  | keyNotString
  | trailingComma
  | trailingCharacters
  | invalidNumber
  | numberOutOfRange
  | controlCharacter
  | invalidEscape
  | loneSurrogate
  | endOfPair
  | tooDeep
  | missingField (name : String)
  | duplicateField (name : String)
  | unknownVariant (name : String)
  | wrongType
  | wrongLength (length : Nat)
  deriving DecidableEq, Repr

/-- The category of a problem. -/
def Cause.category : Cause → Category
  | .endInValue | .endInString | .endInList | .endInObject => .eof
  | .missingField _ | .duplicateField _ | .unknownVariant _ | .wrongType | .wrongLength _ => .data
  | _ => .syntaxError

/-- The text of a problem, without its position. -/
def Cause.message : Cause → String
  | .endInValue => "EOF while parsing a value"
  | .endInString => "EOF while parsing a string"
  | .endInList => "EOF while parsing a list"
  | .endInObject => "EOF while parsing an object"
  | .expectedValue => "expected value"
  | .expectedIdent => "expected ident"
  | .expectedColon => "expected `:`"
  | .expectedListEnd => "expected `,` or `]`"
  | .expectedObjectEnd => "expected `,` or `\x7d`"
  | .keyNotString => "key must be a string"
  | .trailingComma => "trailing comma"
  | .trailingCharacters => "trailing characters"
  | .invalidNumber => "invalid number"
  | .numberOutOfRange => "number out of range"
  | .controlCharacter =>
    "control character (\\u0000-\\u001F) found while parsing a string"
  | .invalidEscape => "invalid escape"
  | .loneSurrogate => "lone leading surrogate in hex escape"
  | .endOfPair => "unexpected end of hex escape"
  | .tooDeep => "recursion limit exceeded"
  | .missingField name => s!"missing field `{name}`"
  | .duplicateField name => s!"duplicate field `{name}`"
  | .unknownVariant name => s!"unknown variant `{name}`"
  | .wrongType => "invalid type"
  | .wrongLength length => s!"invalid length {length}"

/-- A place in a text: a line from 1 and the bytes before it on the line. -/
structure Position where
  line : Nat
  column : Nat
  deriving DecidableEq, Repr

/-- The position behind a character. -/
def Position.advance (position : Position) (c : Char) : Position :=
  if c = '\n' then ⟨position.line + 1, 0⟩
  else ⟨position.line, position.column + c.utf8Size⟩

/-- The position behind a text. -/
def Position.behind (text : List Char) : Position := text.foldl advance ⟨1, 0⟩

/-- A problem with its position, if it has one. -/
structure Error where
  cause : Cause
  position : Option Position
  deriving DecidableEq, Repr

/-- The category of an error. -/
def Error.category (error : Error) : Category := error.cause.category

/-- The text of an error. -/
def Error.message (error : Error) : String :=
  match error.position with
  | none => error.cause.message
  | some ⟨line, column⟩ => s!"{error.cause.message} at line {line} column {column}"

/-- How a problem met while reading stands to what was left to read. -/
inductive Mark where
  /-- No place yet; the enclosing array or object will give one. -/
  | unplaced
  /-- At the end of what was read. -/
  | here
  /-- At the first byte that was not read. -/
  | ahead
  deriving DecidableEq, Repr

/-- A problem met while reading, with what was left of the text. -/
structure Fault where
  cause : Cause
  mark : Mark
  rest : List Char
  deriving DecidableEq, Repr

/-- The position of a problem in the whole text. A first unread character counts
for one byte. -/
def Fault.position (fault : Fault) (text : List Char) : Option Position :=
  let behind := Position.behind (text.take (text.length - fault.rest.length))
  match fault.mark, fault.rest with
  | .unplaced, _ => none
  | .here, _ | .ahead, [] => some behind
  | .ahead, c :: _ =>
    some (if c = '\n' then behind.advance c else ⟨behind.line, behind.column + 1⟩)

/-- The error of a problem in the whole text. -/
def Fault.error (fault : Fault) (text : List Char) : Error :=
  ⟨fault.cause, fault.position text⟩

end Regeneration.Json
