import Regeneration.Proofs.Merge.Emission
import Regeneration.Proofs.Merge.Lineage

/-!
# Order over generations

A list region that preserves its order keeps it for as long as it is generated. Of two
children that every generation has, the one that was emitted first stays first, whatever
orders the generators use and whatever comes and goes around them. A child that the
generation before did not have comes behind all that it had.

This rests on the order that was emitted, not on the order that was generated, being
the former order of the next generation, and on neither edits nor reloading changing it.

Main statement: `order_kept`. The invariant is `Lineage.Listed`, the step is
`filter_emittedAt_step` and the run is `run_order`.
-/

set_option autoImplicit false

namespace Regeneration

/-! ## Relative order -/

/-- Whether one id stands somewhere before another in an order. -/
def Precedes (order : List String) (id other : String) : Prop := [id, other].Sublist order

instance (order : List String) (id other : String) : Decidable (Precedes order id other) :=
  inferInstanceAs (Decidable ([id, other].Sublist order))

/-- Leaving other ids out does not change which of two ids stands before the other. -/
theorem precedes_filter_iff {order kept : List String} {id other : String} (h : id ∈ kept)
    (ho : other ∈ kept) :
    Precedes (order.filter kept.contains) id other ↔ Precedes order id other := by
  constructor
  · intro hp
    exact hp.trans List.filter_sublist
  · intro hp
    have hpair : [id, other].filter kept.contains = [id, other] := by
      simp [h, ho]
    have hfiltered := hp.filter kept.contains
    rwa [hpair] at hfiltered

theorem precedes_append {front back : List String} {id other : String} (h : id ∈ front)
    (ho : other ∈ back) : Precedes (front ++ back) id other :=
  (List.singleton_sublist.2 h).append (List.singleton_sublist.2 ho)

namespace Segment

/-! ## What edits and reloading emit -/

theorem childOrder_putContent (content : String) (target : List String) (tree : Segment) :
    (putContent content target tree).childOrder = tree.childOrder := by
  cases target with
  | nil => cases tree <;> rfl
  | cons id target =>
      have hid : ∀ child : Segment,
          (if child.id = id then putContent content target child else child).id = child.id := by
        intro child
        split
        · exact id_putContent content target child
        · rfl
      cases tree with
      | literal | editable | synchronized => rfl
      | composite _ children => exact ids_map hid children
      | region list => exact ids_map hid list.children

theorem emittedAt_setContent {tree edited : Segment} {target : Address} {content : String}
    (h : tree.setContent target content = .ok edited) (ids : List String) :
    edited.emittedAt ids = tree.emittedAt ids := by
  rw [setContent] at h
  split at h
  · cases h
    rw [emittedAt, emittedAt, live?_putContent, Option.map_map]
    congr 2
    funext place
    simp only [Function.comp_apply]
    split
    · exact childOrder_putContent content _ place
    · rfl
  · cases h
  · cases h

/-- What is emitted at a place is recorded there. -/
theorem emittedAt_eq_record {tree : Segment} (h : tree.WellFormed) (ids : List String) :
    tree.emittedAt ids
      = (((Record.ofSegment tree).at? ids).map fun record =>
          record.children.map Record.id).getD [] := by
  cases hl : tree.live? ids with
  | none =>
      rw [emittedAt, Record.at?_ofSegment h, hl]
      rfl
  | some place =>
      obtain ⟨record, hat, horder⟩ := childOrder_of_live h hl
      rw [emittedAt_eq hl, hat]
      exact horder

theorem emittedAt_of_record {tree other : Segment} (ht : tree.WellFormed) (ho : other.WellFormed)
    (h : Record.ofSegment tree = Record.ofSegment other) (ids : List String) :
    tree.emittedAt ids = other.emittedAt ids := by
  rw [emittedAt_eq_record ht, emittedAt_eq_record ho, h]

end Segment

namespace Lineage

open Segment

/-- The tree held is sound, and at every place it emits what the last generated tree
emits there, in some order. -/
structure Listed (lineage : Lineage) : Prop extends Sound lineage where
  ids : ∀ place, (lineage.held.emittedAt place).Perm (lineage.generated.emittedAt place)

theorem listed_start {new : Segment} {before : Option Segment} (hnew : new.WellFormed)
    (hb : ∀ old, before = some old → old.WellFormed) : (start new before).Listed :=
  ⟨sound_start hnew hb, emittedAt_merge_perm hnew hb⟩

variable {lineage next last : Lineage}

/-! ## One event -/

/-- An event is a generation, or it changes neither the last generated tree nor what the
tree held emits. -/
theorem step_cases (h : lineage.Sound) {event : LineageEvent}
    (hstep : lineage.step event = .ok next) :
    (∃ new, event = .generate new ∧ next.generated = new ∧
      next.held = merge new (some lineage.held)) ∨
    (next.generated = lineage.generated ∧
      ∀ ids, next.held.emittedAt ids = lineage.held.emittedAt ids) := by
  cases event with
  | generate new =>
      cases hstep
      exact .inl ⟨new, rfl, rfl, rfl⟩
  | edit target content =>
      rw [step] at hstep
      split at hstep
      · next edited hset =>
          cases hstep
          exact .inr ⟨rfl, emittedAt_setContent hset⟩
      · cases hstep
        exact .inr ⟨rfl, fun _ => rfl⟩
  | reload =>
      obtain ⟨reloaded, hreload, hrecord, hwell⟩ := Record.exists_reload h.held
      rw [step, hreload] at hstep
      cases hstep
      exact .inr ⟨rfl, emittedAt_of_record hwell h.held hrecord⟩

theorem Listed.step (h : lineage.Listed) {event : LineageEvent} (hevent : WellFormedEvent event)
    (hstep : lineage.step event = .ok next) : next.Listed := by
  obtain ⟨_, hstep', hsound, -⟩ := step_spec h.toSound hevent
  cases hstep.symm.trans hstep'
  refine ⟨hsound, ?_⟩
  intro place
  obtain ⟨new, rfl, hgenerated, hheld⟩ | ⟨hgenerated, hheld⟩ := step_cases h.toSound hstep
  · rw [hgenerated, hheld]
    exact emittedAt_merge_perm hevent h.held.of_some_eq place
  · rw [hgenerated, hheld]
    exact h.ids place

/-- **One event keeps the order** of ids that were there and are there after it. -/
theorem filter_emittedAt_step (h : lineage.Listed) {event : LineageEvent}
    (hevent : WellFormedEvent event) (hstep : lineage.step event = .ok next)
    {ids kept : List String} (hkept : ∀ id ∈ kept, id ∈ lineage.generated.emittedAt ids)
    (hnew : ∀ new, event = .generate new → Matched new lineage.generated ids ∧
      new.policyAt? ids = some .preserve ∧ ∀ id ∈ kept, id ∈ new.emittedAt ids) :
    (next.held.emittedAt ids).filter kept.contains
      = (lineage.held.emittedAt ids).filter kept.contains := by
  obtain ⟨new, rfl, -, hheld⟩ | ⟨-, hheld⟩ := step_cases h.toSound hstep
  · obtain ⟨hm, hp, hlisted⟩ := hnew new rfl
    -- the place held has the shapes of the generated one, edits and reloads notwithstanding
    have hmerge := emittedAt_merge_of_preserve hevent h.held hp (h.shapes.matched_iff.2 hm)
    have hfresh : ((new.emittedAt ids).filter fun id =>
        !(lineage.held.emittedAt ids).contains id).filter kept.contains = [] := by
      rw [List.filter_filter, List.filter_eq_nil_iff]
      intro id _
      -- an id that is kept was emitted before
      by_cases hk : id ∈ kept
      · simp [(h.ids ids).mem_iff.2 (hkept id hk)]
      · simp [hk]
    rw [hheld, hmerge, List.filter_append, hfresh, List.append_nil, List.filter_filter]
    apply List.filter_congr
    intro id _
    by_cases hk : id ∈ kept
    · simp [hk, hlisted id hk]
    · simp [hk]
  · rw [hheld]

/-- What continues through some events continues through all but the first. -/
theorem continues_of_cons {event : LineageEvent} {rest : List LineageEvent} {target : Address}
    (hstep : lineage.step event = .ok next)
    (h : Continues target lineage.generated (event :: rest)) :
    Continues target next.generated rest := by
  cases event with
  | generate new =>
      cases hstep
      exact h.2
  | edit aim content =>
      rw [step] at hstep
      split at hstep
      · cases hstep
        exact h
      · cases hstep
        exact h
  | reload =>
      rw [step] at hstep
      split at hstep
      · cases hstep
        exact h
      · cases hstep

/-! ## Runs of any length -/

/-- **A run keeps the order** of ids that every generation has, at a place that continues
through it and preserves its order. -/
theorem run_order (h : lineage.Listed) {events : List LineageEvent}
    (hevents : ∀ event ∈ events, WellFormedEvent event) (hrun : lineage.run events = .ok last) :
    last.Listed ∧ ∀ ids (kept : List String), Continues ⟨ids⟩ lineage.generated events →
      (∀ id ∈ kept, id ∈ lineage.generated.emittedAt ids) →
      (∀ new, .generate new ∈ events → new.policyAt? ids = some .preserve ∧
        ∀ id ∈ kept, id ∈ new.emittedAt ids) →
      (∀ id ∈ kept, id ∈ last.generated.emittedAt ids) ∧
      (last.held.emittedAt ids).filter kept.contains
        = (lineage.held.emittedAt ids).filter kept.contains := by
  induction events generalizing lineage with
  | nil =>
      cases hrun
      exact ⟨h, fun ids kept _ hkept _ => ⟨hkept, rfl⟩⟩
  | cons event rest ih =>
      rw [run] at hrun
      split at hrun
      · next next hstep =>
          have hevent := hevents event List.mem_cons_self
          have hrest : ∀ other ∈ rest, WellFormedEvent other := by
            intro other hm
            exact hevents other (List.mem_cons_of_mem event hm)
          obtain ⟨hlast, horder⟩ := ih (h.step hevent hstep) hrest hrun
          refine ⟨hlast, ?_⟩
          intro ids kept hcont hkept hnew
          -- what is kept is generated again, or nothing is
          have hnext : ∀ id ∈ kept, id ∈ next.generated.emittedAt ids := by
            obtain ⟨new, rfl, hgenerated, -⟩ | ⟨hgenerated, -⟩ := step_cases h.toSound hstep
            · rw [hgenerated]
              exact (hnew new List.mem_cons_self).2
            · rw [hgenerated]
              exact hkept
          obtain ⟨hin, hsame⟩ := horder ids kept (continues_of_cons hstep hcont) hnext
            fun new hm => hnew new (List.mem_cons_of_mem event hm)
          refine ⟨hin, hsame.trans (filter_emittedAt_step h hevent hstep hkept ?_)⟩
          rintro new rfl
          exact ⟨hcont.1, hnew new List.mem_cons_self⟩
      · cases hrun

/-- **Order is stable over whole runs**, over any events that begin with a first generation,
seen from any point `middle` on the way.

At a place that continues through every later generation, each of which preserves the order
there, two ids that the generation of `middle` and all later ones have are emitted in the end,
and in the relative order in which they were emitted at `middle`.

Of a generation that preserves the order at a place that continues, every id that the
generation before had there is emitted before every id that it had not. -/
theorem order_kept {first : Segment} {before : Option Segment}
    {past later : List LineageEvent} (hfirst : first.WellFormed)
    (hbefore : ∀ old, before = some old → old.WellFormed)
    (hpast : ∀ event ∈ past, WellFormedEvent event)
    (hlater : ∀ event ∈ later, WellFormedEvent event) :
    ∃ middle last, (start first before).run past = .ok middle ∧ middle.run later = .ok last ∧
      (∀ ids, (middle.held.emittedAt ids).Nodup ∧ (last.held.emittedAt ids).Nodup) ∧
      (∀ ids, Continues ⟨ids⟩ middle.generated later →
        (∀ new, .generate new ∈ later → new.policyAt? ids = some .preserve) →
        ∀ a b, a ∈ middle.generated.emittedAt ids → b ∈ middle.generated.emittedAt ids →
          (∀ new, .generate new ∈ later → a ∈ new.emittedAt ids ∧ b ∈ new.emittedAt ids) →
          a ∈ last.held.emittedAt ids ∧ b ∈ last.held.emittedAt ids ∧
          (Precedes (last.held.emittedAt ids) a b ↔ Precedes (middle.held.emittedAt ids) a b)) ∧
      (∀ new ids, new.WellFormed → Matched new middle.generated ids →
        new.policyAt? ids = some .preserve →
        ∃ next, middle.step (.generate new) = .ok next ∧
          ∀ a b, a ∈ new.emittedAt ids → a ∈ middle.generated.emittedAt ids →
            b ∈ new.emittedAt ids → b ∉ middle.generated.emittedAt ids →
            Precedes (next.held.emittedAt ids) a b) := by
  obtain ⟨middle, hpastRun, -⟩ := run_spec (sound_start hfirst hbefore) hpast
  obtain ⟨hmiddle, -⟩ := run_order (listed_start hfirst hbefore) hpast hpastRun
  obtain ⟨last, hlaterRun, -⟩ := run_spec hmiddle.toSound hlater
  obtain ⟨hlast, horder⟩ := run_order hmiddle hlater hlaterRun
  refine ⟨middle, last, hpastRun, hlaterRun, ?_, ?_, ?_⟩
  · intro ids
    exact ⟨nodup_emittedAt hmiddle.held ids, nodup_emittedAt hlast.held ids⟩
  · intro ids hcont hpolicy a b ha hb hboth
    have hkept : ∀ id ∈ [a, b], id ∈ middle.generated.emittedAt ids := by
      simp [ha, hb]
    have hnew : ∀ new, .generate new ∈ later → new.policyAt? ids = some .preserve ∧
        ∀ id ∈ [a, b], id ∈ new.emittedAt ids := by
      intro new hm
      refine ⟨hpolicy new hm, ?_⟩
      simp [hboth new hm]
    obtain ⟨hin, hsame⟩ := horder ids [a, b] hcont hkept hnew
    have ha' : a ∈ [a, b] := List.mem_cons_self
    have hb' : b ∈ [a, b] := List.mem_cons_of_mem a List.mem_cons_self
    refine ⟨(hlast.ids ids).mem_iff.2 (hin a ha'), (hlast.ids ids).mem_iff.2 (hin b hb'), ?_⟩
    -- the two orders agree on the two ids
    rw [← precedes_filter_iff ha' hb', hsame, precedes_filter_iff ha' hb']
  · intro new ids hnew hm hpolicy
    refine ⟨_, rfl, ?_⟩
    intro a b ha haBefore hb hbBefore
    rw [emittedAt_merge_of_preserve hnew hmiddle.held hpolicy (hmiddle.shapes.matched_iff.2 hm)]
    apply precedes_append
    · rw [List.mem_filter, (hmiddle.ids ids).mem_iff]
      exact ⟨haBefore, List.contains_iff_mem.2 ha⟩
    · rw [List.mem_filter, Bool.not_eq_true', Bool.eq_false_iff, Ne, List.contains_iff_mem,
        (hmiddle.ids ids).mem_iff]
      exact ⟨hb, hbBefore⟩

/-- Rows `c`, `a` and `b` are emitted in this order. Row `a` becomes a literal while row `b`
is gone, row `d` is new, and every generation lists the rows in an order of its own. In the
end row `c` is still emitted before row `a`; a new row would come behind both. -/
theorem order_kept_rows :
    WellFormed (.region (Sample.rowsOf ["a", "b", "c"])) ∧
    (∀ old, some (Sample.rowsHeld .preserve) = some old → WellFormed old) ∧
    ∃ middle last next : Lineage,
      (start (.region (Sample.rowsOf ["a", "b", "c"])) (some (Sample.rowsHeld .preserve))).run []
        = .ok middle ∧
      middle.run [.reload, .generate (.region Sample.rowsMixed), .edit ⟨["c"]⟩ "mine",
        .generate (.region (Sample.rowsOf ["d", "b", "a", "c"]))] = .ok last ∧
      Precedes (last.held.emittedAt []) "c" "a" ∧
      middle.step (.generate (.region (Sample.rowsOf ["d", "a"]))) = .ok next ∧
      Precedes (next.held.emittedAt []) "a" "d" := by
  have hfirst : WellFormed (.region (Sample.rowsOf ["a", "b", "c"])) := by decide
  have hold : WellFormed (Sample.rowsHeld .preserve) := by decide
  have hb := hold.of_some_eq
  have hmixed : WellFormed (.region Sample.rowsMixed) := by decide
  have hfinal : WellFormed (.region (Sample.rowsOf ["d", "b", "a", "c"])) := by decide
  have hnew : WellFormed (.region (Sample.rowsOf ["d", "a"])) := by decide
  have hpast : ∀ event ∈ ([] : List LineageEvent), WellFormedEvent event := nofun
  have hlater : ∀ event ∈ [LineageEvent.reload, .generate (.region Sample.rowsMixed),
      .edit ⟨["c"]⟩ "mine", .generate (.region (Sample.rowsOf ["d", "b", "a", "c"]))],
      WellFormedEvent event := by
    simp [WellFormedEvent, hmixed, hfinal]
  obtain ⟨middle, last, hmiddle, hlast, -, hpairs, hfresh⟩ :=
    order_kept hfirst hb hpast hlater
  cases hmiddle
  obtain ⟨next, hnext, hbehind⟩ := hfresh _ [] hnew (by decide) rfl
  obtain ⟨-, -, horder⟩ := hpairs [] ⟨by decide, by decide, trivial⟩
    (by simp [policyAt?, live?, policy?, Sample.rowsOf, Sample.rowsMixed]) "c" "a"
    (by decide) (by decide)
    (by simp [emittedAt, live?, childOrder, Sample.rowsOf, Sample.rowsMixed, Segment.id])
  refine ⟨hfirst, hb, _, last, next, rfl, hlast, horder.2 (by decide), hnext, ?_⟩
  exact hbehind "a" "d" (by decide) (by decide) (by decide) (by decide)

end Lineage

end Regeneration
