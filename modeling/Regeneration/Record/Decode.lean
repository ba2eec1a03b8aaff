import Regeneration.Json.Reader
import Regeneration.Segment.Record

/-!
# Reading records from JSON

A record is an object with a member that names its kind, or an array whose first
item does and whose other items are the fields in their order. The kind is
looked at as soon as it is read; every other member is read as a value first,
and the fields are taken from these values once the whole record has been read.
So a problem with the JSON of a record comes before a problem with the shape of
a child. Members that are no fields of the kind are ignored.

Fields hold texts, lists of records, or a policy; a policy is its name, or an
object with its name as the only member and nothing in it.

Main statement: `ofValues_cons`, a list of records is read item by item.
-/

set_option autoImplicit false

namespace Regeneration.Record

open Json (Value Cause Fault)

/-- The kinds of records. -/
inductive Tag where
  | literal
  | editable
  | composite
  | region
  deriving DecidableEq, Repr

/-- Reads the name of a kind. -/
def Tag.ofName? : String → Option Tag
  | "literal" => some .literal
  | "variable" => some .editable
  | "composite" => some .composite
  | "appendable" => some .region
  | _ => none

/-- The kind that a name stands for. -/
def Tag.named (name : String) : Except Cause Tag :=
  match Tag.ofName? name with
  | some tag => .ok tag
  | none => .error (.unknownVariant name)

/-- The kind of a record that was read as a value: its name or its number. -/
def Tag.ofValue : Value → Except Cause Tag
  | .string name => Tag.named name
  | .number (.natural 0) => .ok .literal
  | .number (.natural 1) => .ok .editable
  | .number (.natural 2) => .ok .composite
  | .number (.natural 3) => .ok .region
  | _ => .error .wrongType

/-- The policy that a value stands for. -/
def policyOf (value : Value) : Except Cause OrderPolicy := do
  let name ← match value with
    | .string name => .ok name
    | .object [(name, .null)] => .ok name
    | .object [(name, .object [])] => .ok name
    | _ => .error .wrongType
  match OrderPolicy.ofName? name with
  | some policy => .ok policy
  | none => .error (.unknownVariant name)

/-- A value of a record and what it is as a list of records. -/
structure Part where
  value : Value
  records : Except Cause (List Record)

/-- The text of a part. -/
def Part.text (part : Part) : Except Cause String :=
  match part.value with
  | .string text => .ok text
  | _ => .error .wrongType

/-- The policy of a part. -/
def Part.policy (part : Part) : Except Cause OrderPolicy := policyOf part.value

/-- The fields found so far. -/
structure Fields where
  id : Option String := none
  content : Option String := none
  policy : Option OrderPolicy := none
  children : Option (List Record) := none

/-- Whether a kind has a field. -/
def Tag.hasField : Tag → String → Bool
  | _, "id" => true
  | .literal, name | .editable, name => name == "content"
  | .composite, name => name == "children"
  | .region, name => name == "policy" || name == "children"

/-- Fills a field that must not be filled yet. -/
def fill {α : Type} (name : String) (held : Option α) (found : Except Cause α) :
    Except Cause (Option α) :=
  match held with
  | some _ => .error (.duplicateField name)
  | none => found.map some

/-- Takes the fields of a kind from members in the order written. -/
def Fields.gather (tag : Tag) : Fields → List (String × Part) → Except Cause Fields
  | fields, [] => .ok fields
  | fields, (name, part) :: rest =>
    if !tag.hasField name then gather tag fields rest
    else do
      let fields ← match name with
        | "id" => do .ok { fields with id := ← fill name fields.id part.text }
        | "content" => do .ok { fields with content := ← fill name fields.content part.text }
        | "policy" => do .ok { fields with policy := ← fill name fields.policy part.policy }
        | _ => do .ok { fields with children := ← fill name fields.children part.records }
      gather tag fields rest

/-- The content of a field that is needed. -/
def need {α : Type} (name : String) (field : Option α) : Except Cause α :=
  match field with
  | some content => .ok content
  | none => .error (.missingField name)

/-- The record of a kind with its fields. -/
def Fields.record (tag : Tag) (fields : Fields) : Except Cause Record := do
  let id ← need "id" fields.id
  match tag with
  | .literal => .ok (.literal id (← need "content" fields.content))
  | .editable => .ok (.editable id (← need "content" fields.content))
  | .composite => .ok (.composite id (← need "children" fields.children))
  | .region =>
    let policy ← need "policy" fields.policy
    .ok (.region id policy (← need "children" fields.children))

/-- The record of a kind written as an object. -/
def ofMembers (tag : Tag) (members : List (String × Part)) : Except Cause Record := do
  let fields ← Fields.gather tag {} members
  fields.record tag

/-- The record of a kind written as an array, its fields in order. -/
def ofItems (tag : Tag) (items : List Part) : Except Cause Record :=
  match tag, items with
  | .literal, [id, content] => do .ok (.literal (← id.text) (← content.text))
  | .editable, [id, content] => do .ok (.editable (← id.text) (← content.text))
  | .composite, [id, children] => do .ok (.composite (← id.text) (← children.records))
  | .region, [id, policy, children] => do
    .ok (.region (← id.text) (← policy.policy) (← children.records))
  | _, items => .error (.wrongLength items.length)

/-- The kind among members that were read as values, and the other members. -/
def splitTag : Option Tag → List (String × Part) →
    Except Cause (Option Tag × List (String × Part))
  | tag, [] => .ok (tag, [])
  | tag, (name, part) :: rest =>
    if name = "type" then
      match tag with
      | some _ => .error (.duplicateField "type")
      | none => do
        let found ← Tag.ofValue part.value
        splitTag (some found) rest
    else do
      let (tag, others) ← splitTag tag rest
      .ok (tag, (name, part) :: others)

/-- The record of an object that was read as a value. -/
def ofObject (members : List (String × Part)) : Except Cause Record := do
  match ← splitTag none members with
  | (some tag, members) => ofMembers tag members
  | (none, _) => .error (.missingField "type")

/-- The record of an array that was read as a value. -/
def ofArray (items : List Part) : Except Cause Record :=
  match items with
  | [] => .error (.missingField "type")
  | tag :: items => do ofItems (← Tag.ofValue tag.value) items

mutual
/-- The record that a value stands for. -/
def ofValue : Value → Except Cause Record
  | .object members => ofObject (memberParts members)
  | .array items => ofArray (itemParts items)
  | _ => .error .wrongType
termination_by structural value => value

/-- The list of records that a value stands for. -/
def ofList : Value → Except Cause (List Record)
  | .array items => ofValues items
  | _ => .error .wrongType
termination_by structural value => value

/-- The records that values stand for. -/
def ofValues : List Value → Except Cause (List Record)
  | [] => .ok []
  | value :: rest => do
    let record ← ofValue value
    let records ← ofValues rest
    .ok (record :: records)
termination_by structural values => values

/-- The parts of an array. -/
def itemParts : List Value → List Part
  | [] => []
  | value :: rest => ⟨value, ofList value⟩ :: itemParts rest
termination_by structural values => values

/-- The parts of an object. -/
def memberParts : List (String × Value) → List (String × Part)
  | [] => []
  | (name, value) :: rest => (name, ⟨value, ofList value⟩) :: memberParts rest
termination_by structural members => members
end

/-- Gives a problem of shape found after reading what was left of the text. -/
def shaped {α : Type} (result : Except Cause α) (rest : List Char) :
    Except Fault (α × List Char) :=
  match result with
  | .ok result => .ok (result, rest)
  | .error cause => .error ⟨cause, .unplaced, rest⟩

/-- Reads the name of a kind. -/
def readTag (text : List Char) : Except Fault (Tag × List Char) := do
  let (name, rest) ← Json.text text
  match Tag.named name with
  | .ok tag => .ok (tag, rest)
  | .error cause => .error ⟨cause, .here, rest⟩

/-- Reads the members of a record, the kind among them; the number bounds the
members. -/
def readMembers (depth : Nat) : Nat → Bool → Option Tag → List Char →
    Except Fault ((Option Tag × List (String × Value)) × List Char)
  | 0, _, _, text => .error ⟨.endInObject, .here, text⟩
  | bound + 1, first, tag, text => do
    match ← Json.nextName first text with
    | .stop rest => .ok ((tag, []), rest)
    | .more rest =>
      let (name, rest) ← Json.Quoted.read rest
      if name = "type" then
        if tag.isSome then .error ⟨.duplicateField "type", .unplaced, rest⟩
        else
          let rest ← Json.colon rest
          let (found, rest) ← readTag rest
          readMembers depth bound false (some found) rest
      else
        let rest ← Json.colon rest
        let (value, rest) ← Json.value depth rest
        let ((tag, others), rest) ← readMembers depth bound false tag rest
        .ok ((tag, (name, value) :: others), rest)

/-- Reads a record that is written as an object whose opening bracket was
read. -/
def readObject (depth : Nat) (text : List Char) :
    Except Fault ((Tag × List (String × Value)) × List Char) := do
  match ← readMembers depth (text.length + 1) true none text with
  | ((some tag, members), rest) => .ok ((tag, members), rest)
  | ((none, _), rest) => .error ⟨.missingField "type", .here, rest⟩

/-- Reads a record that is written as an array whose opening bracket was read. -/
def readArray (depth : Nat) (text : List Char) :
    Except Fault ((Tag × List Value) × List Char) := do
  match ← Json.nextElement true text with
  | .stop rest => .error ⟨.missingField "type", .here, rest⟩
  | .more rest =>
    let (tag, rest) ← readTag rest
    let (items, rest) ← Json.elements (Json.value depth) (rest.length + 1) false rest
    .ok ((tag, items), rest)

/-- Reads a record in which, itself included, so many arrays and objects may be
open. -/
def read (depth : Nat) (text : List Char) : Except Fault (Record × List Char) :=
  match Json.skipBlanks text with
  | [] => .error ⟨.endInValue, .ahead, []⟩
  | c :: rest =>
    if c = '\x7b' then
      match depth with
      | 0 => .error ⟨.tooDeep, .ahead, c :: rest⟩
      | depth + 1 => do
        let ((tag, members), rest) ← Json.placed Json.closeObject (readObject depth rest)
        shaped (ofMembers tag (memberParts members)) rest
    else if c = '[' then
      match depth with
      | 0 => .error ⟨.tooDeep, .ahead, c :: rest⟩
      | depth + 1 => do
        let ((tag, items), rest) ← Json.placed Json.closeList (readArray depth rest)
        shaped (ofItems tag (itemParts items)) rest
    else .error (Json.wrongType (c :: rest))

/-- Reads a whole text as a record. -/
def ofText (text : String) : Except Json.Error Record :=
  Json.readAll (read Json.nestingLimit) text

/-- Several records are read one by one. -/
theorem ofValues_cons (value : Value) (rest : List Value) :
    ofValues (value :: rest)
      = (ofValue value).bind fun record => (ofValues rest).bind fun records =>
          .ok (record :: records) := rfl

end Regeneration.Record
