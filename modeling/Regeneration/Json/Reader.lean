import Regeneration.Json.Numeral
import Regeneration.Json.Quoted

/-!
# Reading JSON

The grammar of arrays and objects is given once, as steps that pass from one
element or member to the next; values, lists of texts and documents with known
members are read with these steps. A reader takes the text that is left and gives
its result with the rest, or the first problem it meets.

Arrays and objects may be open in one another up to a limit, and reading a value
recurses on how many more may be opened.

Main statement: `skipBlanks_of_not_blank`.
-/

set_option autoImplicit false

namespace Regeneration.Json

/-- Reads at the head of a text and gives the result with the rest. -/
abbrev Reader (α : Type) := List Char → Except Fault (α × List Char)

/-- How many arrays and objects may be open at once. -/
def nestingLimit : Nat := 127

/-- The four blanks. -/
def isBlank (c : Char) : Bool := c == ' ' || c == '\n' || c == '\t' || c == '\r'

/-- The text behind its leading blanks. -/
def skipBlanks : List Char → List Char
  | [] => []
  | c :: rest => if isBlank c then skipBlanks rest else c :: rest

theorem skipBlanks_of_not_blank {c : Char} (rest : List Char) (h : isBlank c = false) :
    skipBlanks (c :: rest) = c :: rest := by
  simp [skipBlanks, h]

/-- Passes the letters that have to follow the first of a literal. -/
def ident : List Char → List Char → Except Fault (List Char)
  | [], text => .ok text
  | _ :: _, [] => .error ⟨.endInValue, .here, []⟩
  | letter :: letters, c :: rest =>
    if c = letter then ident letters rest else .error ⟨.expectedIdent, .here, rest⟩

/-- Where a step through an array or object leads. -/
inductive Next where
  /-- To the closing bracket, behind which the rest begins. -/
  | stop (rest : List Char)
  /-- To a further element or to the name of a further member. -/
  | more (rest : List Char)

/-- Steps to the next element of an array. -/
def nextElement (first : Bool) (text : List Char) : Except Fault Next :=
  match skipBlanks text with
  | [] => .error ⟨.endInList, .ahead, []⟩
  | c :: rest =>
    if c = ']' then .ok (.stop rest)
    else if first then .ok (.more (c :: rest))
    else if c = ',' then
      match skipBlanks rest with
      | [] => .error ⟨.endInValue, .ahead, []⟩
      | d :: rest =>
        if d = ']' then .error ⟨.trailingComma, .ahead, d :: rest⟩ else .ok (.more (d :: rest))
    else .error ⟨.expectedListEnd, .ahead, c :: rest⟩

/-- Steps behind the opening quote of the next member's name. -/
def nextName (first : Bool) (text : List Char) : Except Fault Next :=
  match skipBlanks text with
  | [] => .error ⟨.endInObject, .ahead, []⟩
  | c :: rest =>
    if c = '\x7d' then .ok (.stop rest)
    else if first then
      if c = '\x22' then .ok (.more rest) else .error ⟨.keyNotString, .ahead, c :: rest⟩
    else if c = ',' then
      match skipBlanks rest with
      | [] => .error ⟨.endInValue, .ahead, []⟩
      | d :: rest =>
        if d = '\x22' then .ok (.more rest)
        else if d = '\x7d' then .error ⟨.trailingComma, .ahead, d :: rest⟩
        else .error ⟨.keyNotString, .ahead, d :: rest⟩
    else .error ⟨.expectedObjectEnd, .ahead, c :: rest⟩

/-- Passes the colon between a member's name and its value. -/
def colon (text : List Char) : Except Fault (List Char) :=
  match skipBlanks text with
  | [] => .error ⟨.endInObject, .ahead, []⟩
  | c :: rest => if c = ':' then .ok rest else .error ⟨.expectedColon, .ahead, c :: rest⟩

/-- Reads the elements of an array up to its closing bracket. The number bounds
the elements; the length of the text is enough. -/
def elements {α : Type} (item : Reader α) :
    Nat → Bool → Reader (List α)
  | 0, _, text => .error ⟨.endInList, .here, text⟩
  | bound + 1, first, text => do
    match ← nextElement first text with
    | .stop rest => .ok ([], rest)
    | .more rest =>
      let (head, rest) ← item rest
      let (tail, rest) ← elements item bound false rest
      .ok (head :: tail, rest)

/-- Reads the members of an object up to its closing bracket, each by its
name. -/
def members {α : Type} (member : String → Reader α) :
    Nat → Bool → Reader (List (String × α))
  | 0, _, text => .error ⟨.endInObject, .here, text⟩
  | bound + 1, first, text => do
    match ← nextName first text with
    | .stop rest => .ok ([], rest)
    | .more rest =>
      let (name, rest) ← Quoted.read rest
      let rest ← colon rest
      let (head, rest) ← member name rest
      let (tail, rest) ← members member bound false rest
      .ok ((name, head) :: tail, rest)

/-- Reads an array whose opening bracket was read. -/
def array {α : Type} (item : Reader α) (text : List Char) :
    Except Fault (List α × List Char) :=
  elements item (text.length + 1) true text

/-- Reads an object whose opening bracket was read. -/
def object {α : Type} (member : String → Reader α) (text : List Char) :
    Except Fault (List (String × α) × List Char) :=
  members member (text.length + 1) true text

/-- Reads a value; `open` further arrays and objects may be opened in it. -/
def value : Nat → Reader Value
  | depth, text =>
    match skipBlanks text with
    | [] => .error ⟨.endInValue, .ahead, []⟩
    | c :: rest =>
      if c = 'n' then do
        let rest ← ident ['u', 'l', 'l'] rest
        .ok (.null, rest)
      else if c = 't' then do
        let rest ← ident ['r', 'u', 'e'] rest
        .ok (.bool true, rest)
      else if c = 'f' then do
        let rest ← ident ['a', 'l', 's', 'e'] rest
        .ok (.bool false, rest)
      else if c = '-' then do
        let (number, rest) ← Numeral.read true rest
        .ok (.number number, rest)
      else if Numeral.isDigit c then do
        let (number, rest) ← Numeral.read false (c :: rest)
        .ok (.number number, rest)
      else if c = '\x22' then do
        let (text, rest) ← Quoted.read rest
        .ok (.string text, rest)
      else if c = '[' then
        match depth with
        | 0 => .error ⟨.tooDeep, .ahead, c :: rest⟩
        | depth + 1 => do
          let (items, rest) ← array (value depth) rest
          .ok (.array items, rest)
      else if c = '\x7b' then
        match depth with
        | 0 => .error ⟨.tooDeep, .ahead, c :: rest⟩
        | depth + 1 => do
          let (members, rest) ← object (fun _ => value depth) rest
          .ok (.object members, rest)
      else .error ⟨.expectedValue, .ahead, c :: rest⟩

/-- Nothing but blanks may follow. -/
def finish (text : List Char) : Except Fault Unit :=
  match skipBlanks text with
  | [] => .ok ()
  | rest => .error ⟨.trailingCharacters, .ahead, rest⟩

/-- Reads a whole text with a reader. -/
def readAll {α : Type} (reader : Reader α) (text : String) : Except Error α :=
  let chars := text.toList
  match reader chars with
  | .error fault => .error (fault.error chars)
  | .ok (result, rest) =>
    match finish rest with
    | .error fault => .error (fault.error chars)
    | .ok () => .ok result

/-- Reads a text as one value, with the members of its objects as written. -/
def Value.read (text : String) : Except Error Value := readAll (value nestingLimit) text

/-- Tells that a value is not of the kind wanted. Scalars are read first, so a
problem inside one is told instead. -/
def wrongType (text : List Char) : Fault :=
  match text with
  | c :: _ =>
    if c = '[' ∨ c = '\x7b' then ⟨.wrongType, .here, text⟩
    else
      match value 0 text with
      | .error fault => fault
      | .ok (_, rest) => ⟨.wrongType, .here, rest⟩
  | [] => ⟨.expectedValue, .ahead, []⟩

/-- Reads a string and nothing else. -/
def text (input : List Char) : Except Fault (String × List Char) :=
  match skipBlanks input with
  | [] => .error ⟨.endInValue, .ahead, []⟩
  | c :: rest => if c = '\x22' then Quoted.read rest else .error (wrongType (c :: rest))

/-- Where a list left off in the middle would have been closed. -/
def closeList (rest : List Char) : List Char :=
  match skipBlanks rest with
  | ']' :: rest => rest
  | ',' :: rest => skipBlanks rest
  | rest => rest

/-- Where an object left off in the middle would have been closed. -/
def closeObject (rest : List Char) : List Char :=
  match skipBlanks rest with
  | '\x7d' :: rest => rest
  | rest => rest

/-- Gives a problem without a place the place behind the container it was met
in. -/
def placed {α : Type} (close : List Char → List Char) : Except Fault α → Except Fault α
  | .ok result => .ok result
  | .error ⟨cause, .unplaced, rest⟩ => .error ⟨cause, .here, close rest⟩
  | .error fault => .error fault

/-- Reads a list of strings and nothing else. -/
def texts (input : List Char) : Except Fault (List String × List Char) :=
  match skipBlanks input with
  | [] => .error ⟨.endInValue, .ahead, []⟩
  | c :: rest => if c = '[' then array text rest else .error (wrongType (c :: rest))

/-- The closing bracket of a list that has no further elements to give. -/
def endList (text : List Char) : Except Fault (List Char) :=
  match skipBlanks text with
  | [] => .error ⟨.endInList, .ahead, []⟩
  | c :: rest =>
    if c = ']' then .ok rest
    else if c = ',' then
      match skipBlanks rest with
      | ']' :: rest => .error ⟨.trailingComma, .ahead, ']' :: rest⟩
      | rest => .error ⟨.trailingCharacters, .ahead, rest⟩
    else .error ⟨.trailingCharacters, .ahead, c :: rest⟩

end Regeneration.Json
