import Regeneration.Proofs.Merge.Emission
import Regeneration.Proofs.Record.Agreement
import Regeneration.Segment.Sample

/-!
# What an edit touches

An edit goes down to its target through live children and changes the tree in place. If
there is no editable leaf it says why, and the tree stays as it was. If there is one, the
leaf gets the content, and nothing else is changed at any live place: each keeps its kind,
id and policy, the ids of its children, the order in which they are emitted, its former
region and its own content. A tree is determined by these, so an edit can do nothing else.

Looking a segment up may leave the live tree, through the former region of a merged one.
What is found there can be looked at, but it belongs to no live place: it is in neither the
record nor the text, and it cannot be edited.

Main statement: `content_edit`. What the edit in place does is `assign_eq`, its effect on
the record `ofSegment_putContent` and on the live places `outline_putContent`.
-/

set_option autoImplicit false

namespace Regeneration

/-! ## Editing a record -/

namespace Record

/-- The record with a function applied to each of its children. -/
def mapChildren (f : Record → Record) : Record → Record
  | .literal id content => .literal id content
  | .editable id content => .editable id content
  | .composite id children => .composite id (children.map f)
  | .region id policy children => .region id policy (children.map f)

/-- The record with new content in the editable leaf at the given place. -/
def putContent (content : String) : List String → Record → Record
  | [], .editable id _ => .editable id content
  | [], record => record
  | id :: ids, record =>
    record.mapChildren fun child => if child.id = id then putContent content ids child else child

theorem id_putContent (content : String) (ids : List String) (record : Record) :
    (putContent content ids record).id = record.id := by
  cases ids <;> cases record <;> rfl

end Record

namespace Segment

open Record (ofSegment)

/-- A tree with other children has the record with their records. -/
theorem ofSegment_mapChildren_of_comm {f : Segment → Segment} {g : Record → Record}
    (hg : ∀ record, (g record).id = record.id)
    (h : ∀ child, ofSegment (f child) = g (ofSegment child)) (tree : Segment) :
    ofSegment (tree.mapChildren f) = (ofSegment tree).mapChildren g := by
  have hmap : ∀ children : List Segment,
      Record.ofSegments (children.map f) = (Record.ofSegments children).map g := by
    intro children
    simp only [Record.ofSegments_eq_map, List.map_map, Function.comp_def, h]
  cases tree with
  | literal | editable => rfl
  | composite id children => rw [mapChildren, ofSegment, hmap, ofSegment, Record.mapChildren]
  | region list => rw [mapChildren, ofSegment, hmap, ofSegment, Record.mapChildren]
  | synchronized merged former order =>
      rw [mapChildren, ofSegment, hmap, Keyed.pick_map hg, ofSegment, Record.mapChildren]

/-- **The record of an edited tree** is the record with the content put in at the place. -/
theorem ofSegment_putContent (content : String) (ids : List String) (tree : Segment) :
    ofSegment (putContent content ids tree) = (ofSegment tree).putContent content ids := by
  induction ids generalizing tree with
  | nil => cases tree <;> rfl
  | cons id ids ih =>
      apply ofSegment_mapChildren_of_comm
      · intro record
        split
        · exact Record.id_putContent content ids record
        · rfl
      · intro child
        rw [Record.id_ofSegment]
        split
        · exact ih child
        · rfl

/-! ## Editing in place -/

/-- The tree with a child in the place of the one of its id. -/
def putChild (tree child : Segment) : Segment :=
  tree.mapChildren fun other => if other.id = child.id then child else other

/-- Assigns content to the leaf at the end of the ids, going down one live child after
another: the tree as it is then, and the answer. -/
def assign (target : Address) (content : String) :
    List String → Segment → Segment × Except SegmentError Unit
  | [], .editable id _ => (.editable id content, .ok ())
  | [], tree => (tree, .error (.notEditable target))
  | id :: ids, tree =>
    match tree.liveChild? id with
    | none => (tree, .error (.notFound target))
    | some child =>
      let (child, answer) := assign target content ids child
      (tree.putChild child, answer)

theorem mapChildren_congr {tree : Segment} {f g : Segment → Segment}
    (h : ∀ child ∈ tree.children, f child = g child) : tree.mapChildren f = tree.mapChildren g := by
  have hmap : tree.children.map f = tree.children.map g := List.map_congr_left h
  cases tree with
  | literal | editable => rfl
  | composite | region | synchronized =>
      simp only [children] at hmap
      simp only [mapChildren, hmap]

theorem mapChildren_id (tree : Segment) : (tree.mapChildren fun child => child) = tree := by
  cases tree <;> simp [mapChildren]

/-- A child of an id is the only one. -/
theorem eq_of_liveChild? {tree child other : Segment} (h : tree.WellFormed) {id : String}
    (hc : tree.liveChild? id = some child) (hm : other ∈ tree.children) (hid : other.id = id) :
    other = child := by
  have hother : tree.liveChild? id = some other := h.liveChild?_eq_some_iff.2 ⟨hm, hid⟩
  exact Option.some.inj (hother.symm.trans hc)

/-- **What an edit in place does**: it puts the content in if the leaf is there, and else
answers why not and leaves the tree. -/
theorem assign_eq {tree : Segment} (h : tree.WellFormed) (target : Address) (content : String)
    (ids : List String) :
    assign target content ids tree
      = match tree.live? ids with
        | some (.editable ..) => (putContent content ids tree, .ok ())
        | some _ => (tree, .error (.notEditable target))
        | none => (tree, .error (.notFound target)) := by
  induction ids generalizing tree with
  | nil => cases tree <;> rfl
  | cons id ids ih =>
      rw [assign, live?]
      cases hc : tree.liveChild? id with
      | none => rfl
      | some child =>
          have hid : child.id = id := Keyed.key_of_find? hc
          -- putting the child back as it was changes nothing
          have hsame : tree.putChild child = tree := by
            refine (mapChildren_congr ?_).trans tree.mapChildren_id
            intro other hm
            split
            · next he => exact (eq_of_liveChild? h hc hm (he.trans hid)).symm
            · rfl
          have hput : tree.putChild (putContent content ids child)
              = putContent content (id :: ids) tree := by
            apply mapChildren_congr
            intro other hm
            rw [id_putContent, hid]
            split
            · next he => rw [eq_of_liveChild? h hc hm he]
            · rfl
          simp only [ih (h.liveChild hc), Option.bind_some]
          cases hl : child.live? ids with
          | none => simp only [hsame]
          | some place => cases place <;> simp only [hsame, hput]

/-- So it answers what an assignment does and, if it fails, leaves the tree as it was. -/
theorem assign_eq_setContent {tree : Segment} (h : tree.WellFormed) (target : Address)
    (content : String) :
    assign target content target.ids tree
      = match tree.setContent target content with
        | .ok edited => (edited, .ok ())
        | .error error => (tree, .error error) := by
  rw [assign_eq h, setContent]
  cases tree.live? target.ids with
  | none => rfl
  | some place => cases place <;> rfl

/-! ## What is left alone -/

/-- The segment with other children. -/
def withChildren (children : List Segment) : Segment → Segment
  | .literal id content => .literal id content
  | .editable id content => .editable id content
  | .composite id _ => .composite id children
  | .region list => .region { list with children }
  | .synchronized merged former order => .synchronized { merged with children } former order

/-- A segment without what is below it: of its children the ids stay, in the order stored. -/
def outline (tree : Segment) : Segment :=
  tree.withChildren (tree.children.map fun child => .literal child.id "")

theorem withChildren_outline (tree : Segment) : tree.outline.withChildren tree.children = tree := by
  cases tree <;> rfl

theorem ids_outline (tree : Segment) :
    Children.ids tree.outline.children = Children.ids tree.children := by
  have hids : ∀ children : List Segment,
      Children.ids (children.map fun child => .literal child.id "") = Children.ids children :=
    ids_map fun _ => rfl
  cases tree with
  | literal | editable => rfl
  | composite | region | synchronized => exact hids _

theorem outline_putContent_cons (content id : String) (ids : List String) (tree : Segment) :
    outline (putContent content (id :: ids) tree) = tree.outline := by
  have hid : ∀ child : Segment,
      (if child.id = id then putContent content ids child else child).id = child.id := by
    intro child
    split
    · exact id_putContent content ids child
    · rfl
  cases tree with
  | literal | editable => rfl
  | composite | region | synchronized =>
      simp only [outline, withChildren, putContent, mapChildren, children, List.map_map,
        Function.comp_def, hid]

/-- **An edit leaves everything else alone**, at every live place. -/
theorem outline_putContent {tree : Segment} {target : List String} {id held : String}
    (hl : tree.live? target = some (.editable id held)) (content : String) (ids : List String) :
    ((putContent content target tree).live? ids).map outline
      = (tree.live? ids).map fun place =>
          if ids = target then .editable place.id content else place.outline := by
  rw [live?_putContent, Option.map_map]
  cases hplace : tree.live? ids with
  | none => rfl
  | some place =>
      rw [Option.map_some, Option.map_some, Function.comp_apply]
      congr 1
      split
      · next rest hp =>
          have hids : ids ++ rest = target := List.isPrefixOf?_eq_some_iff_append_eq.1 hp
          cases rest with
          | nil =>
              rw [List.append_nil] at hids
              subst hids
              cases hplace.symm.trans hl
              rw [if_pos rfl]
              rfl
          | cons head rest =>
              -- the place lies above the edited leaf
              have hne : ids ≠ target := by
                rintro rfl
                exact List.cons_ne_nil head rest (List.append_right_eq_self.1 hids)
              rw [if_neg hne, outline_putContent_cons]
      · next hp =>
          have hne : ids ≠ target := by
            rintro rfl
            have hself := List.isPrefixOf?_eq_some_iff_append_eq.2 (List.append_nil ids)
            exact Option.some_ne_none [] (hself.symm.trans hp)
          rw [if_neg hne]

/-- **A tree is determined by the outlines of its live places.** -/
theorem eq_of_outlines {tree other : Segment} (ht : tree.WellFormed) (ho : other.WellFormed)
    (h : ∀ ids, (tree.live? ids).map outline = (other.live? ids).map outline) : tree = other := by
  induction tree using children_induction generalizing other with
  | step tree ih =>
      -- the roots tell the ids of the children in order, and the places below each child the child
      have hroot : tree.outline = other.outline := Option.some.inj (h [])
      have hids : Children.ids tree.children = Children.ids other.children := by
        rw [← ids_outline, hroot, ids_outline]
      have hchildren : tree.children = other.children := by
        rw [← List.map_id' tree.children, ← List.map_id' other.children]
        apply Keyed.map_eq_of_keys hids
        intro child hm counterpart hcounterpart hid
        apply ih child hm (ht.each hm) (ho.each hcounterpart)
        intro ids
        have hc : tree.liveChild? child.id = some child :=
          ht.liveChild?_eq_some_iff.2 ⟨hm, rfl⟩
        have hf : other.liveChild? child.id = some counterpart :=
          ho.liveChild?_eq_some_iff.2 ⟨hcounterpart, hid.symm⟩
        have hbelow := h (child.id :: ids)
        rwa [live?, hc, live?, hf] at hbelow
      rw [← tree.withChildren_outline, hroot, hchildren, other.withChildren_outline]

/-! ## What is found in history -/

/-- Whether a segment is found through history: the way down leaves the live tree at a merged
region that has no child of the next id, but whose former region does. -/
def InHistory (tree : Segment) (ids : List String) (found : Segment) : Prop :=
  ∃ above id below merged former order child, ids = above ++ id :: below ∧
    tree.live? above = some (.synchronized merged (some former) order) ∧
    Children.get? merged.children id = none ∧ Children.get? former.children id = some child ∧
    child.find? below = some found

theorem inHistory_cons {tree child found : Segment} {id : String} {ids : List String}
    (hc : tree.liveChild? id = some child) (h : child.InHistory ids found) :
    tree.InHistory (id :: ids) found := by
  obtain ⟨above, next, below, merged, former, order, gone, rfl, hlive, hnone, hgone, hfound⟩ := h
  refine ⟨id :: above, next, below, merged, former, order, gone, rfl, ?_, hnone, hgone, hfound⟩
  rw [live?, hc]
  exact hlive

/-- What is found at no live place is found through history. -/
theorem inHistory_of_find? {tree found : Segment} {ids : List String}
    (hl : tree.live? ids = none) (hf : tree.find? ids = some found) : tree.InHistory ids found := by
  induction ids generalizing tree with
  | nil => cases hl
  | cons id ids ih =>
      obtain ⟨child, hchild, hrest⟩ := Option.bind_eq_some_iff.1 hf
      cases hc : tree.liveChild? id with
      | some live =>
          cases (child?_of_liveChild? hc).symm.trans hchild
          rw [live?, hc] at hl
          exact inHistory_cons hc (ih hl hrest)
      | none =>
          -- only a merged region answers for a child that is not live
          cases tree with
          | literal | editable => cases hchild
          | composite | region => cases hc.symm.trans hchild
          | synchronized merged former order =>
              rcases Option.or_eq_some_iff.1 hchild with hmerged | ⟨-, hformer⟩
              · cases hc.symm.trans hmerged
              · obtain ⟨list, rfl, hgone⟩ := Option.bind_eq_some_iff.1 hformer
                exact ⟨[], id, ids, merged, list, order, child, rfl, rfl, hc, hgone, hrest⟩

theorem child?_withoutHistory (tree : Segment) (id : String) :
    tree.withoutHistory.child? id = (tree.liveChild? id).map withoutHistory := by
  have hfind : ∀ children : List Segment,
      Children.get? (withoutHistoryEach children) id
        = (Children.get? children id).map withoutHistory := by
    intro children
    rw [withoutHistoryEach_eq_map]
    exact Keyed.find?_map id_withoutHistory id children
  cases tree with
  | literal | editable => rfl
  | composite | region => exact hfind _
  | synchronized merged former order => exact Option.or_none.trans (hfind merged.children)

/-- Without history there is nothing to be found but the live tree. -/
theorem find?_withoutHistory (tree : Segment) (ids : List String) :
    tree.withoutHistory.find? ids = (tree.live? ids).map withoutHistory := by
  induction ids generalizing tree with
  | nil => rfl
  | cons id ids ih =>
      rw [find?, live?, child?_withoutHistory, Option.bind_map, Option.map_bind]
      congr 1
      funext child
      exact ih child

/-! ## Edits -/

section Answers

variable (tree : Segment) (target : Address) (content : String)

theorem setContent_eq_ok_iff {edited : Segment} :
    tree.setContent target content = .ok edited ↔
      (∃ id held, tree.live? target.ids = some (.editable id held)) ∧
        edited = putContent content target.ids tree := by
  rw [setContent]
  cases hl : tree.live? target.ids with
  | none => simp
  | some place => cases place <;> simp [eq_comm]

theorem setContent_eq_notEditable_iff :
    tree.setContent target content = .error (.notEditable target) ↔
      ∃ place, tree.live? target.ids = some place ∧ place.kind ≠ .editable := by
  rw [setContent]
  cases hl : tree.live? target.ids with
  | none => simp
  | some place => cases place <;> simp [kind]

theorem setContent_eq_notFound_iff :
    tree.setContent target content = .error (.notFound target) ↔ tree.live? target.ids = none := by
  rw [setContent]
  cases hl : tree.live? target.ids with
  | none => simp
  | some place => cases place <;> simp

theorem editableAt?_isSome_iff :
    (tree.editableAt? target).isSome ↔
      ∃ id held, tree.live? target.ids = some (.editable id held) := by
  rw [editableAt?]
  cases hl : tree.live? target.ids with
  | none => simp
  | some place => cases place <;> simp

end Answers

/-- **An edit touches one leaf and nothing else.** It succeeds exactly if there is a live
editable leaf at the target, which can then be had for editing; it answers that the target
is not editable if something else lives there, and that it is not found if nothing does.
Done in place, an edit that fails leaves the tree as it was. One that succeeds has the
record with the content put in at the target, and it is the only well-formed tree that has
the content at the target and at every other live place what was there.

Looking up gives the live segment wherever there is one. What it gives elsewhere comes from
the former region of a merged one on the way. It is not there in the tree without history,
which has the same text, nor in the record, and editing it fails. -/
theorem content_edit {tree : Segment} (h : tree.WellFormed) (target : Address)
    (content : String) :
    ((∃ edited, tree.setContent target content = .ok edited) ↔
      ∃ id held, tree.live? target.ids = some (.editable id held)) ∧
    (tree.setContent target content = .error (.notEditable target) ↔
      ∃ place, tree.live? target.ids = some place ∧ place.kind ≠ .editable) ∧
    (tree.setContent target content = .error (.notFound target) ↔
      tree.live? target.ids = none) ∧
    ((tree.editableAt? target).isSome ↔ ∃ edited, tree.setContent target content = .ok edited) ∧
    (∀ error, tree.setContent target content = .error error →
      assign target content target.ids tree = (tree, .error error)) ∧
    (∀ edited, tree.setContent target content = .ok edited →
      assign target content target.ids tree = (edited, .ok ()) ∧ edited.WellFormed ∧
      ofSegment edited = (ofSegment tree).putContent content target.ids ∧
      ∀ other : Segment, other.WellFormed →
        (other = edited ↔ ∀ ids, (other.live? ids).map outline
          = (tree.live? ids).map fun place =>
              if ids = target.ids then .editable place.id content else place.outline)) ∧
    (∀ found, tree.live? target.ids = some found → tree.find? target.ids = some found) ∧
    (∀ found, tree.live? target.ids = none → tree.find? target.ids = some found →
      tree.InHistory target.ids found ∧
      tree.withoutHistory.find? target.ids = none ∧ tree.withoutHistory.render = tree.render ∧
      (ofSegment tree).at? target.ids = none ∧
      tree.setContent target content = .error (.notFound target)) := by
  have hsuccess : (∃ edited, tree.setContent target content = .ok edited) ↔
      ∃ id held, tree.live? target.ids = some (.editable id held) := by
    simp only [setContent_eq_ok_iff, exists_and_left, exists_eq, and_true]
  refine ⟨hsuccess, setContent_eq_notEditable_iff tree target content,
    setContent_eq_notFound_iff tree target content, ?_, ?_, ?_, fun found => find?_of_live?, ?_⟩
  · rw [hsuccess, editableAt?_isSome_iff]
  · intro error herror
    rw [assign_eq_setContent h, herror]
  · -- the edited tree has the outlines asked for, and no other tree has them
    intro edited hedited
    obtain ⟨⟨id, held, hl⟩, rfl⟩ := (setContent_eq_ok_iff tree target content).1 hedited
    have hwell := h.putContent content target.ids
    refine ⟨?_, hwell, ofSegment_putContent content target.ids tree, ?_⟩
    · rw [assign_eq_setContent h, hedited]
    · intro other hother
      constructor
      · rintro rfl
        exact outline_putContent hl content
      · intro houtlines
        apply eq_of_outlines hother hwell
        intro ids
        rw [houtlines, outline_putContent hl content]
  · intro found hl hf
    refine ⟨inHistory_of_find? hl hf, ?_, render_withoutHistory tree, ?_,
      (setContent_eq_notFound_iff tree target content).2 hl⟩
    · rw [find?_withoutHistory, hl, Option.map_none]
    · rw [Record.at?_ofSegment h, hl, Option.map_none]

/-- The body of row `a` is edited. Row `b` can still be looked up, but it is history, and
its body cannot be edited. -/
theorem content_edit_rows :
    WellFormed Sample.mergedRows ∧
    (∃ edited, Sample.mergedRows.setContent ⟨["rows", "a", "body"]⟩ "new" = .ok edited ∧
      ofSegment edited
        = (ofSegment Sample.mergedRows).putContent "new" ["rows", "a", "body"]) ∧
    Sample.mergedRows.InHistory ["rows", "b", "body"] (.editable "body" "gone") ∧
    Sample.mergedRows.setContent ⟨["rows", "b", "body"]⟩ "new"
      = .error (.notFound ⟨["rows", "b", "body"]⟩) := by
  have h : WellFormed Sample.mergedRows := by decide
  obtain ⟨hsuccess, -, -, -, -, hedited, -, -⟩ := content_edit h ⟨["rows", "a", "body"]⟩ "new"
  obtain ⟨edited, hok⟩ := hsuccess.2 ⟨"body", "mine", rfl⟩
  obtain ⟨-, -, hrecord, -⟩ := hedited edited hok
  obtain ⟨-, -, -, -, -, -, -, hhistory⟩ := content_edit h ⟨["rows", "b", "body"]⟩ "new"
  obtain ⟨hfound, -, -, -, hrefused⟩ := hhistory (.editable "body" "gone") rfl rfl
  exact ⟨h, ⟨edited, hok, hrecord⟩, hfound, hrefused⟩

end Segment

end Regeneration
