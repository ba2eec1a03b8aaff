import Regeneration.Json.Reader

/-!
# Passing a JSON value

The value of a member nobody asks for is passed without being built. Its grammar
is checked, and nothing else: it may be nested to any depth, its numbers may be
of any size, and halves of surrogate pairs may stand alone. The brackets that are
open are kept on a stack, so depth costs no recursion.
-/

set_option autoImplicit false

namespace Regeneration.Json

/-- An open bracket. -/
inductive Bracket where
  | list
  | object
  deriving DecidableEq, Repr

/-- The problem of a text that ends inside a bracket. -/
def Bracket.ended : Bracket → Cause
  | .list => .endInList
  | .object => .endInObject

/-- The problem of an element that is followed by neither comma nor bracket. -/
def Bracket.unclosed : Bracket → Cause
  | .list => .expectedListEnd
  | .object => .expectedObjectEnd

/-- The character that closes a bracket. -/
def Bracket.closing : Bracket → Char
  | .list => ']'
  | .object => '\x7d'

/-- Passes the name and the colon of a member; an array element has neither. -/
def Bracket.skipName (bracket : Bracket) (text : List Char) : Except Fault (List Char) :=
  match bracket with
  | .list => .ok text
  | .object =>
    match skipBlanks text with
    | [] => .error ⟨.endInObject, .ahead, []⟩
    | c :: rest =>
      if c = '\x22' then
        match Quoted.skip rest with
        | .error fault => .error fault
        | .ok rest => colon rest
      else .error ⟨.keyNotString, .ahead, c :: rest⟩

/-- Where passing a value stands. -/
inductive Passing where
  /-- Before a value. -/
  | value
  /-- Behind an opening bracket. -/
  | opened
  /-- Behind a value. -/
  | done
  deriving DecidableEq, Repr

/-- Passes the head of a value and tells how to go on. -/
def passHead (brackets : List Bracket) (text : List Char) :
    Except Fault (Passing × List Bracket × List Char) :=
  match skipBlanks text with
  | [] => .error ⟨.endInValue, .ahead, []⟩
  | c :: rest =>
    if c = '[' then .ok (.opened, .list :: brackets, rest)
    else if c = '\x7b' then .ok (.opened, .object :: brackets, rest)
    else do
      let rest ←
        if c = 'n' then ident ['u', 'l', 'l'] rest
        else if c = 't' then ident ['r', 'u', 'e'] rest
        else if c = 'f' then ident ['a', 'l', 's', 'e'] rest
        else if c = '-' then Numeral.skip rest
        else if Numeral.isDigit c then Numeral.skip (c :: rest)
        else if c = '\x22' then Quoted.skip rest
        else .error ⟨.expectedValue, .ahead, c :: rest⟩
      .ok (.done, brackets, rest)

/-- Passes what stands behind an opening bracket or a value, up to the next value
or through the closing bracket. -/
def passTail (opened : Bool) (bracket : Bracket) (brackets : List Bracket) (text : List Char) :
    Except Fault (Passing × List Bracket × List Char) :=
  match skipBlanks text with
  | [] => .error ⟨bracket.ended, .ahead, []⟩
  | c :: rest =>
    if c = bracket.closing then .ok (.done, brackets, rest)
    else if opened then do
      let rest ← bracket.skipName (c :: rest)
      .ok (.value, bracket :: brackets, rest)
    else if c = ',' then do
      let rest ← bracket.skipName rest
      .ok (.value, bracket :: brackets, rest)
    else .error ⟨bracket.unclosed, .ahead, c :: rest⟩

/-- Passes a value; the number bounds the steps. -/
def pass : Nat → Passing → List Bracket → List Char → Except Fault (List Char)
  | 0, _, _, text => .error ⟨.endInValue, .here, text⟩
  | bound + 1, .value, brackets, text => do
    let (passing, brackets, rest) ← passHead brackets text
    pass bound passing brackets rest
  | _ + 1, _, [], text => .ok text
  | bound + 1, passing, bracket :: brackets, text => do
    let (passing, brackets, rest) ← passTail (passing == .opened) bracket brackets text
    pass bound passing brackets rest

/-- Passes a value. Every second step at least takes a character. -/
def skip (text : List Char) : Except Fault (List Char) :=
  pass (2 * text.length + 2) .value [] text

end Regeneration.Json
