import Regeneration.Proofs.Merge.Content
import Regeneration.Proofs.Merge.Recorded
import Regeneration.Proofs.Merge.Shape
import Regeneration.Segment.Sample

/-!
# Lineages of generations

The tree of a file lives through many events. A generation merges a new tree with
the one held, an edit changes one leaf of the tree held, and reloading writes the
tree as a record and rebuilds it. Each can follow each, any number of times.

A place that continues through every generation keeps what was last written to it.
A place that does not continue starts over with the generated default, whatever
former regions the tree held still carries.

Main statement: `edits_kept`. The invariant is `Lineage.Sound` (the tree held is well
formed and has the shapes of the last generated tree), the step is `step_spec` and
the run is `run_spec`.
-/

set_option autoImplicit false

namespace Regeneration

open Segment

/-- The tree of a file through the generations: the last generated tree, the tree
held, and the edits accepted so far with the latest first. -/
structure Lineage where
  generated : Segment
  held : Segment
  edits : List (Address × String)

/-- What can happen to the tree held. -/
inductive LineageEvent where
  | generate (new : Segment)
  | edit (target : Address) (content : String)
  | reload

namespace Lineage

/-- The lineage that begins with a first generation. -/
def start (new : Segment) (before : Option Segment) : Lineage :=
  ⟨new, merge new before, []⟩

/-- One event. A refused edit changes nothing; a record that does not rebuild is an
error. -/
def step (lineage : Lineage) : LineageEvent → Except SegmentError Lineage
  | .generate new => .ok ⟨new, merge new (some lineage.held), lineage.edits⟩
  | .edit target content =>
    match lineage.held.setContent target content with
    | .ok edited => .ok ⟨lineage.generated, edited, (target, content) :: lineage.edits⟩
    | .error _ => .ok lineage
  | .reload =>
    match (Record.ofSegment lineage.held).toSegment with
    | .ok reloaded => .ok { lineage with held := reloaded }
    | .error error => .error error

/-- Several events in turn, up to the first error. -/
def run (lineage : Lineage) : List LineageEvent → Except SegmentError Lineage
  | [] => .ok lineage
  | event :: rest =>
    match lineage.step event with
    | .ok next => next.run rest
    | .error error => .error error

/-- Whether a place continues through every generation among some events. -/
def Continues (target : Address) : Segment → List LineageEvent → Prop
  | _, [] => True
  | now, .generate new :: rest => Matched new now target.ids ∧ Continues target new rest
  | now, .edit _ _ :: rest => Continues target now rest
  | now, .reload :: rest => Continues target now rest

/-- Generators build well-formed trees; other events carry none. -/
def WellFormedEvent : LineageEvent → Prop
  | .generate new => new.WellFormed
  | .edit _ _ => True
  | .reload => True

/-- **The invariant of a lineage.** The tree held is well formed and has the live
places and shapes of the last generated one. -/
structure Sound (lineage : Lineage) : Prop where
  held : lineage.held.WellFormed
  shapes : SameShapes lineage.held lineage.generated

/-- A later state of a lineage holds at an address what the edits in between last
wrote there, and what was held before if they wrote nothing. -/
def Keeps (target : Address) (earlier later : Lineage) : Prop :=
  ∃ recent, later.edits = recent ++ earlier.edits ∧
    later.held.contentAt? target =
      (recent.lookup target).or (earlier.held.contentAt? target)

theorem Keeps.refl (target : Address) (lineage : Lineage) : Keeps target lineage lineage :=
  ⟨[], rfl, rfl⟩

theorem Keeps.trans {target : Address} {first second third : Lineage}
    (h : Keeps target first second) (h' : Keeps target second third) :
    Keeps target first third := by
  obtain ⟨recent, hedits, hheld⟩ := h
  obtain ⟨recent', hedits', hheld'⟩ := h'
  refine ⟨recent' ++ recent, ?_, ?_⟩
  · rw [hedits', hedits, List.append_assoc]
  · rw [hheld', hheld, List.lookup_append, Option.or_assoc]

/-! ## One event -/

theorem sound_start {new : Segment} {before : Option Segment} (hnew : new.WellFormed)
    (hb : ∀ old, before = some old → old.WellFormed) : (start new before).Sound :=
  ⟨hnew.merge hb, sameShapes_merge new before⟩

variable {lineage : Lineage} {target : Address}

/-- The leaf of a continuing place is an editable leaf of the tree held, and the
next generation takes it over. -/
theorem keeps_generate {new : Segment} (h : lineage.Sound)
    (hleaf : lineage.generated.shapeAt? target.ids = some .editable)
    (hm : Matched new lineage.generated target.ids) :
    Keeps target lineage ⟨new, merge new (some lineage.held), lineage.edits⟩ := by
  have hnew : new.shapeAt? target.ids = some .editable := hm.shapeAt?.trans hleaf
  obtain ⟨id, content, hlive⟩ := shapeAt?_eq_editable_iff.1 hnew
  have hheld : Matched new lineage.held target.ids := h.shapes.matched_iff.2 hm
  obtain ⟨formerId, former, hformer, hmerged⟩ := live?_merge_of_matched hlive hheld
  -- nothing was written, so the former content has to be the new one
  refine ⟨[], rfl, ?_⟩
  have hafter : (merge new (some lineage.held)).contentAt? target = some former :=
    contentAt?_eq_some_iff.2 ⟨id, hmerged⟩
  have hbefore : lineage.held.contentAt? target = some former :=
    contentAt?_eq_some_iff.2 ⟨formerId, hformer⟩
  rw [hafter, hbefore]
  rfl

theorem keeps_edit {aim : Address} {content : String} {edited : Segment}
    (h : lineage.held.setContent aim content = .ok edited) :
    Keeps target lineage ⟨lineage.generated, edited, (aim, content) :: lineage.edits⟩ := by
  refine ⟨[(aim, content)], rfl, ?_⟩
  rw [contentAt?_setContent h, List.lookup_cons]
  by_cases heq : target = aim
  · rw [if_pos heq, heq, beq_self_eq_true]
    rfl
  · rw [if_neg heq, beq_eq_false_iff_ne.2 heq]
    rfl

/-- **One event** succeeds and keeps the invariant. At an editable place that continues
through it, nothing but an edit of that very place changes the content. -/
theorem step_spec (h : lineage.Sound) {event : LineageEvent} (hevent : WellFormedEvent event) :
    ∃ next, lineage.step event = .ok next ∧ next.Sound ∧
      ∀ target, lineage.generated.shapeAt? target.ids = some .editable →
        ∀ rest, Continues target lineage.generated (event :: rest) →
          Keeps target lineage next ∧ Continues target next.generated rest ∧
            next.generated.shapeAt? target.ids = some .editable := by
  cases event with
  | generate new =>
      have hmerged : (merge new (some lineage.held)).WellFormed :=
        WellFormed.merge hevent h.held.of_some_eq
      refine ⟨_, rfl, ⟨hmerged, sameShapes_merge new _⟩, ?_⟩
      intro target hleaf rest hcont
      obtain ⟨hm, hrest⟩ := hcont
      exact ⟨keeps_generate h hleaf hm, hrest, hm.shapeAt?.trans hleaf⟩
  | edit aim content =>
      cases hset : lineage.held.setContent aim content with
      | error error =>
          -- a refused edit leaves the lineage as it is
          have hstep : lineage.step (.edit aim content) = .ok lineage := by
            rw [step, hset]
          exact ⟨lineage, hstep, h, fun target hleaf rest hcont =>
            ⟨Keeps.refl target lineage, hcont, hleaf⟩⟩
      | ok edited =>
          -- an accepted one changes neither ids nor kinds
          have hstep : lineage.step (.edit aim content)
              = .ok ⟨lineage.generated, edited, (aim, content) :: lineage.edits⟩ := by
            rw [step, hset]
          have hshapes : SameShapes edited lineage.generated :=
            (sameShapes_setContent hset).trans h.shapes
          refine ⟨_, hstep, ⟨h.held.setContent hset, hshapes⟩, ?_⟩
          intro target hleaf rest hcont
          exact ⟨keeps_edit hset, hcont, hleaf⟩
  | reload =>
      -- the record is never refused, and it determines shapes and contents
      obtain ⟨reloaded, hreload, hrecord, hwell⟩ := Record.exists_reload h.held
      have hstep : lineage.step .reload = .ok { lineage with held := reloaded } := by
        rw [step, hreload]
      have hshapes : SameShapes reloaded lineage.generated :=
        (sameShapes_of_record hwell h.held hrecord).trans h.shapes
      refine ⟨_, hstep, ⟨hwell, hshapes⟩, ?_⟩
      intro target hleaf rest hcont
      have hcontent : reloaded.contentAt? target = lineage.held.contentAt? target :=
        contentAt?_of_record hwell h.held hrecord target
      exact ⟨⟨[], rfl, hcontent⟩, hcont, hleaf⟩

/-! ## Runs of any length -/

theorem run_append {first second : List LineageEvent} {middle : Lineage}
    (h : lineage.run first = .ok middle) : lineage.run (first ++ second) = middle.run second := by
  induction first generalizing lineage with
  | nil =>
      cases h
      rfl
  | cons event rest ih =>
      rw [run] at h
      rw [List.cons_append, run]
      cases hstep : lineage.step event with
      | error error =>
          rw [hstep] at h
          cases h
      | ok next =>
          rw [hstep] at h
          exact ih h

/-- **A run** succeeds and keeps the invariant, and what `step_spec` says of one event
holds of the whole run. -/
theorem run_spec (h : lineage.Sound) {events : List LineageEvent}
    (hevents : ∀ event ∈ events, WellFormedEvent event) :
    ∃ last, lineage.run events = .ok last ∧ last.Sound ∧
      ∀ target, lineage.generated.shapeAt? target.ids = some .editable →
        Continues target lineage.generated events → Keeps target lineage last := by
  induction events generalizing lineage with
  | nil => exact ⟨lineage, rfl, h, fun target _ _ => Keeps.refl target lineage⟩
  | cons event rest ih =>
      obtain ⟨next, hstep, hnext, hkeeps⟩ := step_spec h (hevents event List.mem_cons_self)
      have hrest : ∀ other ∈ rest, WellFormedEvent other := by
        intro other hother
        exact hevents other (List.mem_cons_of_mem event hother)
      obtain ⟨last, hrun, hlast, hkept⟩ := ih hnext hrest
      have hwhole : lineage.run (event :: rest) = .ok last := by
        rw [run, hstep]
        exact hrun
      refine ⟨last, hwhole, hlast, ?_⟩
      intro target hleaf hcont
      obtain ⟨hone, hcont', hleaf'⟩ := hkeeps target hleaf rest hcont
      exact hone.trans (hkept target hleaf' hcont')

/-- **Edits are kept and dropped content stays dropped**, over any events that begin
with a first generation, seen from any point `middle` on the way.

At an address where the last generated tree has an editable leaf and that continues
through every later generation, the tree held in the end has what was last written
there since `middle`, and what was held there at `middle` if nothing was.

At a place where the next generated tree has an editable leaf that does not continue
the last generated one, the next tree held has the generated default. -/
theorem edits_kept {first : Segment} {before : Option Segment}
    {past later : List LineageEvent} (hfirst : first.WellFormed)
    (hbefore : ∀ old, before = some old → old.WellFormed)
    (hpast : ∀ event ∈ past, WellFormedEvent event)
    (hlater : ∀ event ∈ later, WellFormedEvent event) :
    ∃ middle last, (start first before).run past = .ok middle ∧ middle.run later = .ok last ∧
      (start first before).run (past ++ later) = .ok last ∧
      (∀ target id content,
        middle.generated.live? target.ids = some (.editable id content) →
        Continues target middle.generated later →
        ∃ held recent, middle.held.contentAt? target = some held ∧
          last.edits = recent ++ middle.edits ∧
          last.held.contentAt? target = some ((recent.lookup target).getD held)) ∧
      (∀ new ids id content, new.live? ids = some (.editable id content) →
        ¬ Matched new middle.generated ids →
        ∃ next, middle.step (.generate new) = .ok next ∧
          next.held.live? ids = some (.editable id content)) := by
  obtain ⟨middle, hpastRun, hmiddle, -⟩ := run_spec (sound_start hfirst hbefore) hpast
  obtain ⟨last, hlaterRun, -, hkeeps⟩ := run_spec hmiddle hlater
  refine ⟨middle, last, hpastRun, hlaterRun, (run_append hpastRun).trans hlaterRun, ?_, ?_⟩
  · intro target id content hlive hcont
    have hleaf : middle.generated.shapeAt? target.ids = some .editable :=
      shapeAt?_eq_editable_iff.2 ⟨id, content, hlive⟩
    obtain ⟨recent, hedits, hcontent⟩ := hkeeps target hleaf hcont
    -- the tree held has the shapes of the generated one, so it has a leaf there too
    have hheldLeaf : middle.held.shapeAt? target.ids = some .editable :=
      (hmiddle.shapes target.ids).trans hleaf
    obtain ⟨heldId, held, hheld⟩ := shapeAt?_eq_editable_iff.1 hheldLeaf
    have hmiddleContent : middle.held.contentAt? target = some held :=
      contentAt?_eq_some_iff.2 ⟨heldId, hheld⟩
    refine ⟨held, recent, hmiddleContent, hedits, ?_⟩
    rw [hcontent, hmiddleContent]
    cases recent.lookup target with
    | none => rfl
    | some written => rfl
  · intro new ids id content hlive hm
    refine ⟨_, rfl, live?_merge_of_not_matched hlive ?_⟩
    rw [matchedIn_some_iff, hmiddle.shapes.matched_iff]
    exact hm

/-- Row `b` is edited and then generated no more; row `a` is edited after a reload and
generated throughout. Row `a` ends with its edit, and row `b` would come back with its
default although its edited text is still in history. -/
theorem edits_kept_rows :
    WellFormed Sample.twoRows ∧ (∀ old, some Sample.mergedRows = some old → WellFormed old) ∧
    ∃ middle last : Lineage,
      (start Sample.twoRows (some Sample.mergedRows)).run
        [.edit ⟨["rows", "b", "body"]⟩ "kept", .generate Sample.mergedRows] = .ok middle ∧
      middle.run [.reload, .edit ⟨["rows", "a", "body"]⟩ "again", .generate Sample.twoRows]
        = .ok last ∧
      (∃ held recent, middle.held.contentAt? ⟨["rows", "a", "body"]⟩ = some held ∧
        last.edits = recent ++ middle.edits ∧
        last.held.contentAt? ⟨["rows", "a", "body"]⟩
          = some ((recent.lookup ⟨["rows", "a", "body"]⟩).getD held)) ∧
      ∃ next, middle.step (.generate Sample.twoRows) = .ok next ∧
        next.held.live? ["rows", "b", "body"] = some (.editable "body" "b0") := by
  have hnew : WellFormed Sample.twoRows := by decide
  have hmergedRows : WellFormed Sample.mergedRows := by decide
  have hb := hmergedRows.of_some_eq
  have hpast : ∀ event ∈ [LineageEvent.edit ⟨["rows", "b", "body"]⟩ "kept",
      .generate Sample.mergedRows], WellFormedEvent event := by
    simp [WellFormedEvent, hmergedRows]
  have hlater : ∀ event ∈ [LineageEvent.reload, .edit ⟨["rows", "a", "body"]⟩ "again",
      .generate Sample.twoRows], WellFormedEvent event := by
    simp [WellFormedEvent, hnew]
  obtain ⟨middle, last, hmiddle, hlast, -, hkept, hdefault⟩ := edits_kept hnew hb hpast hlater
  have hgenerated : middle.generated = Sample.mergedRows := by
    have hrun : ((start Sample.twoRows (some Sample.mergedRows)).run
        [.edit ⟨["rows", "b", "body"]⟩ "kept", .generate Sample.mergedRows]).map Lineage.generated
          = .ok Sample.mergedRows := rfl
    rw [hmiddle] at hrun
    exact Except.ok.inj hrun
  refine ⟨hnew, hb, middle, last, hmiddle, hlast, ?_, ?_⟩
  · apply hkept ⟨["rows", "a", "body"]⟩ "body" "mine"
    · rw [hgenerated]
      rfl
    · rw [hgenerated]
      exact ⟨by decide, trivial⟩
  · apply hdefault Sample.twoRows ["rows", "b", "body"] "body" "b0" rfl
    rw [hgenerated]
    decide

end Lineage

end Regeneration
