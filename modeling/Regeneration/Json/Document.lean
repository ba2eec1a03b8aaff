import Regeneration.Json.Skip

/-!
# Reading documents with known members

A document is an object with members that are known by name, or an array with
their values in order. Members with other names are passed. A member that is
known may occur once.
-/

set_option autoImplicit false

namespace Regeneration.Json

/-- Reads a known member, whose name was read, unless it was held before. -/
def field {α : Type} (name : String) (held : Option α) (reader : Reader α)
    (text : List Char) : Except Fault (Option α × List Char) :=
  match held with
  | some _ => .error ⟨.duplicateField name, .unplaced, text⟩
  | none => do
    let (found, rest) ← reader (← colon text)
    .ok (some found, rest)

/-- Reads members up to the closing bracket. `known` tells which members are
known and how one of them changes what was read so far; the number bounds the
members. -/
def fieldsFrom {α : Type} (known : String → Option (α → Reader α)) :
    Nat → Bool → α → List Char → Except Fault (α × List Char)
  | 0, _, _, text => .error ⟨.endInObject, .here, text⟩
  | bound + 1, first, held, text => do
    match ← nextName first text with
    | .stop rest => .ok (held, rest)
    | .more rest =>
      let (name, rest) ← Quoted.read rest
      match known name with
      | some take =>
        let (held, rest) ← take held rest
        fieldsFrom known bound false held rest
      | none =>
        let rest ← skip (← colon rest)
        fieldsFrom known bound false held rest

/-- Reads the members of an object whose opening bracket was read. -/
def fields {α : Type} (known : String → Option (α → Reader α)) (start : α)
    (text : List Char) : Except Fault (α × List Char) :=
  fieldsFrom known (text.length + 1) true start text

/-- The value of a member that has to occur. -/
def required {α : Type} (name : String) (held : Option α) (rest : List Char) :
    Except Fault (α × List Char) :=
  match held with
  | some found => .ok (found, rest)
  | none => .error ⟨.missingField name, .here, rest⟩

/-- Reads a document whose members are read by `object` and whose array form is
read by `array`, each from behind the opening bracket. -/
def document {α : Type} (object array : Reader α) (text : List Char) :
    Except Fault (α × List Char) :=
  match skipBlanks text with
  | [] => .error ⟨.endInValue, .ahead, []⟩
  | c :: rest =>
    if c = '\x7b' then placed closeObject (object rest)
    else if c = '[' then placed closeList (array rest)
    else .error (wrongType (c :: rest))

/-- Reads an object in which every member is wanted. -/
def table {α : Type} (reader : Reader α) (text : List Char) :
    Except Fault (List (String × α) × List Char) :=
  match skipBlanks text with
  | [] => .error ⟨.endInValue, .ahead, []⟩
  | c :: rest =>
    if c = '\x7b' then placed closeObject (Json.object (fun _ => reader) rest)
    else .error (wrongType (c :: rest))

/-- Reads a value unless there is `null`. -/
def optional {α : Type} (reader : Reader α) (text : List Char) :
    Except Fault (Option α × List Char) :=
  match skipBlanks text with
  | 'n' :: rest => do
    let rest ← ident ['u', 'l', 'l'] rest
    .ok (none, rest)
  | rest => do
    let (found, rest) ← reader rest
    .ok (some found, rest)

end Regeneration.Json
