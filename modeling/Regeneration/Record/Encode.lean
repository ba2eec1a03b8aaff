import Regeneration.Json.Writer
import Regeneration.Segment.Record

/-!
# Records as JSON

A record is an object whose first member tells the kind. The id follows, then
the content of a leaf, or the policy of a list region and the children of a
container.

Main statement: `toValues_eq_map`.
-/

set_option autoImplicit false

namespace Regeneration.Record

open Json (Value)

mutual
/-- The record as a JSON value. -/
def toValue : Record → Value
  | .literal id content =>
    .object [("type", .string "literal"), ("id", .string id), ("content", .string content)]
  | .editable id content =>
    .object [("type", .string "variable"), ("id", .string id), ("content", .string content)]
  | .composite id children =>
    .object [("type", .string "composite"), ("id", .string id),
      ("children", .array (toValues children))]
  | .region id policy children =>
    .object [("type", .string "appendable"), ("id", .string id), ("policy", .string policy.name),
      ("children", .array (toValues children))]
termination_by structural record => record

/-- Several records as JSON values. -/
def toValues : List Record → List Value
  | [] => []
  | record :: rest => toValue record :: toValues rest
termination_by structural records => records
end

@[simp] theorem toValues_eq_map (records : List Record) :
    toValues records = records.map toValue := by
  induction records with
  | nil => rfl
  | cons record rest ih => rw [toValues, ih, List.map_cons]

/-- The compact JSON text of a record. -/
def compact (record : Record) : String := record.toValue.compact

/-- The indented JSON text of a record. -/
def indented (record : Record) : String := record.toValue.indented

/-- The JSON text of a record, indented if asked for. -/
def text (pretty : Bool) (record : Record) : String :=
  if pretty then record.indented else record.compact

end Regeneration.Record
