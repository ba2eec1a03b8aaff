import Regeneration.Segment.Lookup
import Regeneration.Proofs.Record.Tree

/-!
# Live segments

What an edit does to every live place of a tree, and what remains of a tree
without the former regions of its synchronized segments. Nothing live is lost with
them: live places, text and record stay.

Main statements: `contentAt?_setContent` (an edit is seen at its own place only),
`render_withoutHistory` and `ofSegment_withoutHistory`.
-/

set_option autoImplicit false

namespace Regeneration.Segment

/-! ## Edits seen from any place -/

theorem kind_putContent (content : String) (ids : List String) (tree : Segment) :
    (putContent content ids tree).kind = tree.kind := by
  cases ids <;> cases tree <;> rfl

theorem liveChild?_mapChildren {f : Segment → Segment} (hf : ∀ child, (f child).id = child.id)
    (tree : Segment) (id : String) :
    (tree.mapChildren f).liveChild? id = (tree.liveChild? id).map f := by
  cases tree with
  | literal => rfl
  | editable => rfl
  | composite _ children => exact Keyed.find?_map hf id children
  | region list => exact Keyed.find?_map hf id list.children
  | synchronized merged => exact Keyed.find?_map hf id merged.children

theorem liveChild?_putContent (content id target : String) (ids : List String) (tree : Segment) :
    (putContent content (target :: ids) tree).liveChild? id
      = (tree.liveChild? id).map fun child =>
          if id = target then putContent content ids child else child := by
  rw [putContent, liveChild?_mapChildren]
  · cases h : tree.liveChild? id with
    | none => rfl
    | some child =>
        have hid : child.id = id := Keyed.key_of_find? h
        simp only [Option.map_some, hid]
  · intro child
    split
    · exact id_putContent content ids child
    · rfl

/-- **An edit seen from any place.** Above its target a place sees the edit below
it; elsewhere nothing changes. -/
theorem live?_putContent (content : String) (target ids : List String) (tree : Segment) :
    (putContent content target tree).live? ids
      = (tree.live? ids).map fun node =>
          match ids.isPrefixOf? target with
          | some rest => putContent content rest node
          | none => node := by
  induction ids generalizing tree target with
  | nil => rfl
  | cons id ids ih =>
      cases target with
      | nil =>
          -- an edit of the root reaches no child
          have hsame : (putContent content [] tree).liveChild? id = tree.liveChild? id := by
            cases tree <;> rfl
          simp only [live?, hsame, List.isPrefixOf?, Option.map_id']
      | cons head target =>
          simp only [live?, liveChild?_putContent, Option.bind_map, Option.map_bind]
          congr 1
          funext child
          by_cases h : id = head
          · -- the target lies on or below this child
            subst h
            simp only [Function.comp_apply, if_true, List.isPrefixOf?, beq_self_eq_true]
            exact ih target child
          · simp only [Function.comp_apply, if_neg h, List.isPrefixOf?, beq_iff_eq, Option.map_id']

/-! ## Content of places -/

/-- The content of the editable leaf at an address; none if there is no such
leaf. -/
def contentAt? (tree : Segment) (target : Address) : Option String :=
  (tree.editableAt? target).map Prod.snd

theorem contentAt?_eq_some_iff {tree : Segment} {target : Address} {held : String} :
    tree.contentAt? target = some held ↔
      ∃ id, tree.live? target.ids = some (.editable id held) := by
  rw [contentAt?, editableAt?, Option.map_eq_some_iff]
  constructor
  · rintro ⟨leaf, hleaf, rfl⟩
    split at hleaf
    · next id content hlive =>
        cases hleaf
        exact ⟨id, hlive⟩
    · cases hleaf
  · rintro ⟨id, hlive⟩
    exact ⟨(id, held), by rw [hlive], rfl⟩

/-- An edit below a segment leaves the segment's own content alone. -/
theorem putContent_cons_eq_editable_iff {content head id held : String} {rest : List String}
    {node : Segment} :
    putContent content (head :: rest) node = .editable id held ↔ node = .editable id held := by
  cases node <;> simp [putContent, mapChildren]

/-- **What an edit leaves at any address**: its own content at its target, what was
there anywhere else. -/
theorem contentAt?_setContent {tree edited : Segment} {aim : Address} {content : String}
    (h : tree.setContent aim content = .ok edited) (target : Address) :
    edited.contentAt? target = if target = aim then some content else tree.contentAt? target := by
  rw [setContent] at h
  split at h
  · next id former hlive =>
      cases h
      split
      · next heq =>
          subst heq
          have hself : target.ids.isPrefixOf? target.ids = some [] :=
            List.isPrefixOf?_eq_some_iff_append_eq.2 (List.append_nil _)
          rw [contentAt?_eq_some_iff, live?_putContent, hlive, Option.map_some, hself]
          exact ⟨id, rfl⟩
      · next hne =>
          apply Option.ext
          intro held
          rw [contentAt?_eq_some_iff, contentAt?_eq_some_iff, live?_putContent]
          cases hp : target.ids.isPrefixOf? aim.ids with
          | none => rw [Option.map_id']
          | some rest =>
              have hids : target.ids ++ rest = aim.ids :=
                List.isPrefixOf?_eq_some_iff_append_eq.1 hp
              -- the target lies above the edited leaf, so its own content is not touched
              cases rest with
              | nil =>
                  rw [List.append_nil] at hids
                  exact absurd (congrArg Address.mk hids) hne
              | cons head rest =>
                  simp only [Option.map_eq_some_iff, putContent_cons_eq_editable_iff,
                    exists_eq_right]
  · cases h
  · cases h

/-- Trees of one record hold the same at every address. -/
theorem contentAt?_of_record {tree other : Segment} (ht : tree.WellFormed)
    (ho : other.WellFormed) (h : Record.ofSegment tree = Record.ofSegment other)
    (target : Address) : tree.contentAt? target = other.contentAt? target := by
  have hrecord : ∀ {node : Segment} {id held : String},
      node = .editable id held ↔ Record.ofSegment node = .editable id held := by
    intro node id held
    cases node <;> simp [Record.ofSegment]
  have hat : ∀ {whole : Segment} {held : String}, whole.WellFormed →
      (whole.contentAt? target = some held ↔
        ∃ id, (Record.ofSegment whole).at? target.ids = some (.editable id held)) := by
    intro whole held hw
    simp only [contentAt?_eq_some_iff, Record.at?_ofSegment hw, Option.map_eq_some_iff, ← hrecord,
      exists_eq_right]
  apply Option.ext
  intro held
  rw [hat ht, hat ho, h]

/-! ## Trees without history -/

mutual
/-- The tree without the former regions of its synchronized segments. -/
def withoutHistory : Segment → Segment
  | .literal id content => .literal id content
  | .editable id content => .editable id content
  | .composite id children => .composite id (withoutHistoryEach children)
  | .region ⟨id, policy, children⟩ => .region ⟨id, policy, withoutHistoryEach children⟩
  | .synchronized ⟨id, policy, children⟩ _ order =>
    .synchronized ⟨id, policy, withoutHistoryEach children⟩ none order
termination_by structural tree => tree

/-- Several trees without history. -/
def withoutHistoryEach : List Segment → List Segment
  | [] => []
  | child :: rest => withoutHistory child :: withoutHistoryEach rest
termination_by structural trees => trees
end

@[simp] theorem withoutHistoryEach_eq_map (trees : List Segment) :
    withoutHistoryEach trees = trees.map withoutHistory := by
  induction trees with
  | nil => rfl
  | cons tree rest ih => rw [withoutHistoryEach, ih, List.map_cons]

@[simp] theorem id_withoutHistory (tree : Segment) : tree.withoutHistory.id = tree.id := by
  cases tree <;> rfl

/-- History is not recorded. -/
theorem ofSegment_withoutHistory (tree : Segment) :
    Record.ofSegment tree.withoutHistory = Record.ofSegment tree := by
  induction tree using tree_induction with
  | literal => rfl
  | editable => rfl
  | composite id children ih =>
      simp only [withoutHistory, Record.ofSegment, withoutHistoryEach_eq_map,
        Record.ofSegments_eq_map, List.map_map, Function.comp_def, List.map_congr_left ih]
  | region list ih =>
      simp only [withoutHistory, Record.ofSegment, withoutHistoryEach_eq_map,
        Record.ofSegments_eq_map, List.map_map, Function.comp_def, List.map_congr_left ih]
  | synchronized merged former order ih _ =>
      simp only [withoutHistory, Record.ofSegment, withoutHistoryEach_eq_map,
        Record.ofSegments_eq_map, List.map_map, Function.comp_def, List.map_congr_left ih]

theorem render_withoutHistory (tree : Segment) : tree.withoutHistory.render = tree.render := by
  rw [← Record.leafText_ofSegment, ofSegment_withoutHistory, Record.leafText_ofSegment]

end Regeneration.Segment
