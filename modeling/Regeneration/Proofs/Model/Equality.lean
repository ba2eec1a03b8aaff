import Regeneration.Proofs.Model.Files
import Regeneration.Proofs.Segment.Equality
import Regeneration.Segment.Sample

/-!
# What equal models write

Files compare equal by path and tree, and models by their files, in order, and their
guidance documents. As trees that compare equal may emit children in different orders, so
may files and models, and what they write is different then. If they emit the same orders
and their guidance documents have one text they write the same. Documents are compared by
value, so a zero is equal to a negative one and has another text.

Main statement: `same_up_to_order`. That the condition is needed is `same_reordered`.
-/

set_option autoImplicit false

namespace Regeneration

/-! ## Comparing -/

namespace Json

/-- Whether two numbers are of one kind and equal. -/
def Number.same : Number → Number → Bool
  | .natural value, .natural other => value == other
  | .negative value, .negative other => value == other
  | .real value, .real other => value == other
  | _, _ => false

mutual
/-- Whether two documents are equal, their members in order. -/
def Value.same : Value → Value → Bool
  | .null, .null => true
  | .bool value, .bool other => value == other
  | .number value, .number other => value.same other
  | .string value, .string other => value == other
  | .array items, .array others => sameItems items others
  | .object members, .object others => sameMembers members others
  | _, _ => false
termination_by structural value => value

/-- Whether two arrays have equal items. -/
def Value.sameItems : List Value → List Value → Bool
  | [], [] => true
  | item :: rest, other :: others => item.same other && sameItems rest others
  | _, _ => false
termination_by structural items => items

/-- Whether two objects have equal members. -/
def Value.sameMembers : List (String × Value) → List (String × Value) → Bool
  | [], [] => true
  | (name, value) :: rest, (name', other) :: others =>
    name == name' && value.same other && sameMembers rest others
  | _, _ => false
termination_by structural members => members
end

end Json

/-- Whether two files have one path and equal trees. -/
def File.same (file other : File) : Bool :=
  file.path == other.path && file.tree.same other.tree

/-- Whether two lists of files are equal, one by one. -/
def File.sameEach : List File → List File → Bool
  | [], [] => true
  | file :: rest, other :: others => file.same other && sameEach rest others
  | _, _ => false

/-- Whether two guidance documents are equal or both missing. -/
def Json.sameDocument : Option Json.Value → Option Json.Value → Bool
  | none, none => true
  | some value, some other => value.same other
  | _, _ => false

/-- Whether two models have equal files and equal guidance documents. -/
def Model.same (model other : Model) : Bool :=
  File.sameEach model.files other.files && Json.sameDocument model.guidance other.guidance

/-! ## Writing -/

/-- Files that compare equal show the same if they emit the same orders. -/
theorem File.view_of_same {file other : File} (h : file.same other = true)
    (hf : file.tree.WellFormed) (ho : other.tree.WellFormed)
    (horder : ∀ ids, file.tree.emittedAt ids = other.tree.emittedAt ids) :
    file.view = other.view := by
  rw [File.same, Bool.and_eq_true, beq_iff_eq] at h
  have hrecord : file.record = other.record := Segment.record_eq_of_same hf ho h.2 horder
  rw [File.view, File.view, h.1, hrecord]

theorem File.views_of_sameEach {files others : List File} (h : File.sameEach files others = true)
    (hf : ∀ file ∈ files, file.tree.WellFormed) (ho : ∀ other ∈ others, other.tree.WellFormed)
    (horder : ∀ file ∈ files, ∀ other ∈ others, file.path = other.path →
      ∀ ids, file.tree.emittedAt ids = other.tree.emittedAt ids) :
    files.map File.view = others.map File.view := by
  induction files generalizing others with
  | nil =>
      cases others with
      | nil => rfl
      | cons => cases h
  | cons file rest ih =>
      cases others with
      | nil => cases h
      | cons other others =>
          rw [File.sameEach, Bool.and_eq_true] at h
          obtain ⟨hfile, hrest⟩ := h
          obtain ⟨hfileWell, hrestWell⟩ := List.forall_mem_cons.1 hf
          obtain ⟨hotherWell, hothersWell⟩ := List.forall_mem_cons.1 ho
          have hpath : file.path = other.path := by
            rw [File.same, Bool.and_eq_true, beq_iff_eq] at hfile
            exact hfile.1
          have hhead := File.view_of_same hfile hfileWell hotherWell
            (horder file List.mem_cons_self other List.mem_cons_self hpath)
          have htail := ih hrest hrestWell hothersWell fun file hm other hn =>
            horder file (List.mem_cons_of_mem _ hm) other (List.mem_cons_of_mem _ hn)
          rw [List.map_cons, List.map_cons, hhead, htail]

/-- **Equal trees are interchangeable up to the order of children.** Trees that compare
equal have the same live places with segments of one kind, id, policy and content, and emit
the same ids at each, in some order. They have one record and one text exactly if it is the
same order at every place. And models that compare equal, with files that emit the same
orders and guidance documents of one text, write the same outputs. -/
theorem same_up_to_order {tree other : Segment} (ht : tree.Built) (ho : other.Built)
    (h : tree.same other = true) :
    (∀ ids, Option.Rel Segment.Alike (tree.live? ids) (other.live? ids)) ∧
    (∀ ids, (tree.emittedAt ids).Perm (other.emittedAt ids)) ∧
    (Record.ofSegment tree = Record.ofSegment other ∧ tree.render = other.render ↔
      ∀ ids, tree.emittedAt ids = other.emittedAt ids) ∧
    ∀ model counterpart : Model, model.same counterpart = true →
      (∀ file ∈ model.files, file.tree.Built) → (∀ file ∈ counterpart.files, file.tree.Built) →
      (∀ file ∈ model.files, ∀ twin ∈ counterpart.files, file.path = twin.path →
        ∀ ids, file.tree.emittedAt ids = twin.tree.emittedAt ids) →
      model.guidance.map Json.Value.compact = counterpart.guidance.map Json.Value.compact →
      ∀ layout pretty, model.outputs layout pretty = counterpart.outputs layout pretty := by
  have htree := ht.wellFormed
  have hother := ho.wellFormed
  refine ⟨Segment.alike_live? htree h, Segment.emittedAt_perm_of_same htree hother h, ?_, ?_⟩
  · constructor
    · rintro ⟨hrecord, -⟩
      exact Segment.emittedAt_of_record htree hother hrecord
    · intro horder
      have hrecord := Segment.record_eq_of_same htree hother h horder
      refine ⟨hrecord, ?_⟩
      rw [← Record.leafText_ofSegment, hrecord, Record.leafText_ofSegment]
  · intro model counterpart hsame hmodel hcounterpart horder hguidance layout pretty
    rw [Model.same, Bool.and_eq_true] at hsame
    -- of a document only the text is written, of a file its path and what its record shows
    apply Model.outputs_of_texts _ hguidance
    exact File.views_of_sameEach hsame.1 (fun file hm => (hmodel file hm).wellFormed)
      (fun file hm => (hcounterpart file hm).wellFormed) horder

/-! ## Orders that are compared and orders that are not -/

namespace Sample

/-- Rows merged and emitted as rows `c`, `a` and `b`, stored in the given order. -/
def rowsStored (ids : List String) : Segment :=
  .synchronized (rowsOf ids) none ["c", "a", "b"]

/-- A file of literals that are their own ids. -/
def columns (ids : List String) : Segment :=
  .composite "columns" (ids.map fun id => .literal id id)

/-- A model of one file. -/
def oneFile (tree : Segment) : Model := .ofList [⟨"rows.txt", tree⟩]

end Sample

/-- The order in which merged rows are stored is not compared, and it makes no difference. -/
theorem same_up_to_order_rows :
    (Sample.rowsStored ["a", "b", "c"]).Built ∧ (Sample.rowsStored ["b", "c", "a"]).Built ∧
    (Sample.rowsStored ["a", "b", "c"]).same (Sample.rowsStored ["b", "c", "a"]) = true ∧
    (∀ ids, (Sample.rowsStored ["a", "b", "c"]).emittedAt ids
      = (Sample.rowsStored ["b", "c", "a"]).emittedAt ids) ∧
    ∀ layout pretty, (Sample.oneFile (Sample.rowsStored ["a", "b", "c"])).outputs layout pretty
      = (Sample.oneFile (Sample.rowsStored ["b", "c", "a"])).outputs layout pretty := by
  have htree : (Sample.rowsStored ["a", "b", "c"]).Built := Segment.built_iff.2 (by decide)
  have hother : (Sample.rowsStored ["b", "c", "a"]).Built := Segment.built_iff.2 (by decide)
  have hsame :
      (Sample.rowsStored ["a", "b", "c"]).same (Sample.rowsStored ["b", "c", "a"]) = true := by
    decide
  have hmodels : (Sample.oneFile (Sample.rowsStored ["a", "b", "c"])).same
      (Sample.oneFile (Sample.rowsStored ["b", "c", "a"])) = true := by decide
  obtain ⟨-, -, hiff, houtputs⟩ := same_up_to_order htree hother hsame
  have horder := hiff.1 ⟨rfl, by decide⟩
  refine ⟨htree, hother, hsame, horder, ?_⟩
  apply houtputs _ _ hmodels
  · intro file hm
    rw [List.mem_singleton.1 hm]
    exact htree
  · intro file hm
    rw [List.mem_singleton.1 hm]
    exact hother
  · intro file hm counterpart hn _
    rw [List.mem_singleton.1 hm, List.mem_singleton.1 hn]
    exact horder
  · rfl

/-- **Equal trees can have different texts.** Children in another order compare equal, and so
do the files and the models, which write different outputs. -/
theorem same_reordered :
    (Sample.columns ["a", "b"]).Built ∧ (Sample.columns ["b", "a"]).Built ∧
    (Sample.columns ["a", "b"]).same (Sample.columns ["b", "a"]) = true ∧
    (Sample.columns ["a", "b"]).render = "ab" ∧ (Sample.columns ["b", "a"]).render = "ba" ∧
    Record.ofSegment (Sample.columns ["a", "b"]) ≠ Record.ofSegment (Sample.columns ["b", "a"]) ∧
    (Sample.oneFile (Sample.columns ["a", "b"])).same (Sample.oneFile (Sample.columns ["b", "a"]))
      = true ∧
    (Sample.oneFile (Sample.columns ["a", "b"])).outputs Layout.standard false
      ≠ (Sample.oneFile (Sample.columns ["b", "a"])).outputs Layout.standard false := by
  refine ⟨Segment.built_iff.2 (by decide), Segment.built_iff.2 (by decide), by decide, by decide,
    by decide, ?_, by decide, by decide⟩
  intro h
  have htext := congrArg Record.leafText h
  exact absurd htext (by decide)

end Regeneration
