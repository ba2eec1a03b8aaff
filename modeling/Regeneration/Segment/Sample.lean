import Regeneration.Segment.Synchronized

/-!
# Sample trees

Small trees in the shapes that generators produce: a list region of editable
leaves, a row with a signature and an optional body, a class file with an import
block and one field region, a file of rows before and after a merge, rows in several
orders, and a leaf below many containers.
-/

set_option autoImplicit false

namespace Regeneration.Sample

/-- A list region of the given children. -/
def regionOf (id : String) (policy : OrderPolicy) (children : List Segment) :
    Except SegmentError (Region Segment) :=
  match Children.ofList id children with
  | .ok children => .ok ⟨id, policy, children⟩
  | .error error => .error error

/-- A list region of editable leaves, one per id and content. -/
def region (id : String) (policy : OrderPolicy) (items : List (String × String)) :
    Except SegmentError (Region Segment) :=
  regionOf id policy (items.map fun (child, content) => .editable child content)

/-- A row for a model element: its signature and, if it has one, its body. -/
def row (id signature : String) (body : Option String) : Segment :=
  .composite id (.literal "signature" signature :: (body.map (Segment.editable "body")).toList)

/-- A class file with an import block and a region of fields. -/
def classFile (name : String) (policy : OrderPolicy) (fields : List (String × String)) :
    Except SegmentError Segment :=
  match region "fields" policy fields with
  | .error error => .error error
  | .ok fields =>
    .ok (.composite (name ++ ".java")
      [.literal "header" ("public class " ++ name ++ " \x7b\n"), .editable "imports" "",
        .region fields, .literal "footer" "\x7d\n"])

/-- A leaf below as many containers as asked for; `container` makes the container
of a level, numbered from the inside. -/
def nested (container : Nat → String → Segment → Segment) (leaf : Segment) : Nat → Segment
  | 0 => leaf
  | depth + 1 => container depth ("n" ++ toString depth) (nested container leaf depth)

/-- A container without a policy and with one child. -/
def compositeAround (id : String) (child : Segment) : Segment := .composite id [child]

/-- A list region with one child. -/
def regionAround (policy : OrderPolicy) (id : String) (child : Segment) : Segment :=
  .region ⟨id, policy, [child]⟩

/-- Composites and list regions in turn, a composite innermost. -/
def alternating (policy : OrderPolicy) (level : Nat) : String → Segment → Segment :=
  if level % 2 = 0 then compositeAround else regionAround policy

/-- A file with a region of two rows, as generated. -/
def twoRows : Segment :=
  .composite "file"
    [.literal "header" "rows\n",
      .region ⟨"rows", .preserve, [row "a" "a: " (some "a0"), row "b" "b: " (some "b0")]⟩]

/-- The same file as held after a merge that put a new row last and kept an edit,
with a row in history that is not generated any more. -/
def mergedRows : Segment :=
  .composite "file"
    [.literal "header" "rows\n",
      .synchronized ⟨"rows", .preserve, [row "c" "c: " (some "c0"), row "a" "a: " (some "mine")]⟩
        (some ⟨"rows", .preserve, [row "b" "b: " (some "gone"), row "a" "a: " (some "mine")]⟩)
        ["a", "c"]]

/-- A region of rows of one leaf each, as generated. -/
def rowsOf (ids : List String) : Region Segment :=
  ⟨"rows", .preserve, ids.map fun id => .editable id ""⟩

/-- Such a region as held, emitted in another order than it is stored in. -/
def rowsHeld (policy : OrderPolicy) : Segment :=
  .synchronized { rowsOf ["a", "b", "c"] with policy } none ["c", "a", "b"]

/-- Such a region with a row that is a literal now. -/
def rowsMixed : Region Segment :=
  ⟨"rows", .preserve, [.editable "d" "", .literal "a" "", .editable "c" ""]⟩

end Regeneration.Sample
