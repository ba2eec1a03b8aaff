import Regeneration.Proofs.Merge.Places

/-!
# Shapes of live places

Which places of two trees continue each other depends on their shapes alone: the
kinds of their live segments, merged and unmerged list regions taken as one. A
merge has the shape of the new tree, and neither an edit nor reloading changes
the shape of a tree.

Main statements: `matched_iff` (continuing said through shapes),
`sameShapes_merge`, `sameShapes_setContent` and `sameShapes_of_record`.
-/

set_option autoImplicit false

namespace Regeneration

/-- The kind with merged and unmerged list regions taken as one. -/
def SegmentKind.shape : SegmentKind → SegmentKind
  | .synchronized => .region
  | kind => kind

namespace Segment

theorem sameShape_iff {now before : SegmentKind} :
    sameShape now before = true ↔ now.shape = before.shape := by
  cases now <;> cases before <;> decide

/-- The shape of the live segment at a place. -/
def shapeAt? (tree : Segment) (ids : List String) : Option SegmentKind :=
  (tree.live? ids).map fun node => node.kind.shape

theorem shapeAt?_cons (tree : Segment) (id : String) (ids : List String) :
    tree.shapeAt? (id :: ids) = (tree.liveChild? id).bind fun child => child.shapeAt? ids := by
  simp only [shapeAt?, live?, Option.map_bind, Function.comp_def]

/-- **A place continues another** if at the root and at every step down to it both
trees have a live segment of one shape. -/
theorem matched_iff {now before : Segment} {ids : List String} :
    Matched now before ids ↔
      ∀ above, above <+: ids →
        ∃ shape, now.shapeAt? above = some shape ∧ before.shapeAt? above = some shape := by
  induction ids generalizing now before with
  | nil =>
      constructor
      · intro h above hp
        rw [List.prefix_nil.1 hp]
        exact ⟨now.kind.shape, rfl, congrArg some (sameShape_iff.1 h).symm⟩
      · intro h
        obtain ⟨shape, hn, hb⟩ := h [] List.nil_prefix
        exact sameShape_iff.2 (Option.some.inj (hn.trans hb.symm))
  | cons id ids ih =>
      constructor
      · rintro ⟨hroot, child, former, hc, hf, hrest⟩ above hp
        rcases List.prefix_cons_iff.1 hp with rfl | ⟨below, rfl, hbelow⟩
        · exact ⟨now.kind.shape, rfl, congrArg some (sameShape_iff.1 hroot).symm⟩
        · rw [shapeAt?_cons, shapeAt?_cons, hc, hf]
          exact ih.1 hrest below hbelow
      · intro h
        have hcons : ∀ above, above <+: ids → id :: above <+: id :: ids := by
          intro above hp
          exact List.prefix_cons_iff.2 (.inr ⟨above, rfl, hp⟩)
        -- the root and the first step down, at which both trees have a child
        obtain ⟨shape, hn, hb⟩ := h [] List.nil_prefix
        obtain ⟨below, hnc, hbc⟩ := h [id] (hcons [] List.nil_prefix)
        rw [shapeAt?_cons] at hnc hbc
        obtain ⟨child, hc, -⟩ := Option.bind_eq_some_iff.1 hnc
        obtain ⟨former, hf, -⟩ := Option.bind_eq_some_iff.1 hbc
        have hroot : sameShape now.kind before.kind = true :=
          sameShape_iff.2 (Option.some.inj (hn.trans hb.symm))
        refine ⟨hroot, child, former, hc, hf, ih.2 ?_⟩
        intro above hp
        have hbelow := h (id :: above) (hcons above hp)
        rwa [shapeAt?_cons, shapeAt?_cons, hc, hf] at hbelow

/-- Two trees with the same live places, of the same shapes. -/
def SameShapes (tree other : Segment) : Prop := ∀ ids, tree.shapeAt? ids = other.shapeAt? ids

theorem SameShapes.trans {a b c : Segment} (hab : SameShapes a b) (hbc : SameShapes b c) :
    SameShapes a c := by
  intro ids
  exact (hab ids).trans (hbc ids)

/-- Trees of the same shapes are continued by the same places. -/
theorem SameShapes.matched_iff {now before other : Segment} (h : SameShapes before other)
    {ids : List String} : Matched now before ids ↔ Matched now other ids := by
  simp only [Segment.matched_iff, h _]

/-- A place of editable shape holds an editable leaf. -/
theorem shapeAt?_eq_editable_iff {tree : Segment} {ids : List String} :
    tree.shapeAt? ids = some .editable ↔
      ∃ id content, tree.live? ids = some (.editable id content) := by
  rw [shapeAt?, Option.map_eq_some_iff]
  constructor
  · rintro ⟨node, hn, hshape⟩
    cases node with
    | editable id content => exact ⟨id, content, hn⟩
    | literal | composite | region | synchronized => cases hshape
  · rintro ⟨id, content, hn⟩
    exact ⟨_, hn, rfl⟩

/-- A continuing place has one shape in both trees. -/
theorem Matched.shapeAt? {now before : Segment} {ids : List String}
    (h : Matched now before ids) : now.shapeAt? ids = before.shapeAt? ids := by
  obtain ⟨shape, hn, hb⟩ := matched_iff.1 h ids List.prefix_rfl
  rw [hn, hb]

/-! ## What keeps the shapes of a tree -/

theorem shape_merge (new : Segment) (before : Option Segment) :
    (merge new before).kind.shape = new.kind.shape := by
  cases new with
  | editable id content =>
      cases before with
      | none => rfl
      | some old => cases old <;> rfl
  | literal | composite | region | synchronized => rfl

theorem sameShapes_merge (new : Segment) (before : Option Segment) :
    SameShapes (merge new before) new := by
  intro ids
  simp only [shapeAt?, live?_merge, Option.map_map, Function.comp_def, shape_merge]

theorem sameShapes_putContent (content : String) (target : List String) (tree : Segment) :
    SameShapes (putContent content target tree) tree := by
  intro ids
  rw [shapeAt?, live?_putContent, shapeAt?, Option.map_map]
  congr 1
  funext node
  simp only [Function.comp_apply]
  split
  · rw [kind_putContent]
  · rfl

theorem sameShapes_setContent {tree edited : Segment} {target : Address} {content : String}
    (h : tree.setContent target content = .ok edited) : SameShapes edited tree := by
  rw [setContent] at h
  split at h
  · cases h
    exact sameShapes_putContent content target.ids tree
  · cases h
  · cases h

theorem kind_ofSegment (tree : Segment) : (Record.ofSegment tree).kind = tree.kind.shape := by
  cases tree <;> rfl

/-- The shapes of a tree are those of its record. -/
theorem shapeAt?_eq_record {tree : Segment} (h : tree.WellFormed) (ids : List String) :
    tree.shapeAt? ids = ((Record.ofSegment tree).at? ids).map Record.kind := by
  simp only [shapeAt?, Record.at?_ofSegment h, Option.map_map, Function.comp_def, kind_ofSegment]

theorem sameShapes_of_record {tree other : Segment} (ht : tree.WellFormed)
    (ho : other.WellFormed) (h : Record.ofSegment tree = Record.ofSegment other) :
    SameShapes tree other := by
  intro ids
  rw [shapeAt?_eq_record ht, shapeAt?_eq_record ho, h]

end Segment

end Regeneration
