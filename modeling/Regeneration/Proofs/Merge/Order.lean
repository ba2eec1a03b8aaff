import Mathlib.Data.List.Perm.Basic
import Regeneration.Merge.Order
import Regeneration.Proofs.Keyed.Arrangement

/-!
# The emitted order as an arrangement

A policy either leaves the merged children as they are or moves those that the
former region had to the front, in the order they had there. Requesting the order
of a policy, settling it and choosing the children by it comes to that
arrangement.

Main statements: `pick_settleOrder_emission` and `emission_preserve` (the preserved
order as survivors and new ids). The steps are `settleOrder_of_perm` (an order that
lists every id once is kept as requested) and `arrange_eq_firstOccurrences` (the
preserved order is an arrangement of ids).
-/

set_option autoImplicit false

namespace Regeneration

/-! ## First occurrences -/

theorem firstOccurrences_filter (p : String → Bool) (ids : List String) :
    firstOccurrences (ids.filter p) = (firstOccurrences ids).filter p := by
  induction ids with
  | nil => rfl
  | cons head tail ih =>
      by_cases hp : p head = true
      · simp only [List.filter_cons_of_pos hp, firstOccurrences, ih, List.filter_filter,
          Bool.and_comm]
      · -- the head is filtered out, and so is every later occurrence of it
        simp only [List.filter_cons_of_neg hp, firstOccurrences, ih, List.filter_filter]
        apply List.filter_congr
        intro id _
        by_cases hid : id = head
        · simp [hid, hp]
        · simp [hid]

theorem firstOccurrences_of_nodup {ids : List String} (hd : ids.Nodup) :
    firstOccurrences ids = ids := by
  induction ids with
  | nil => rfl
  | cons head tail ih =>
      obtain ⟨hhead, htail⟩ := List.nodup_cons.1 hd
      rw [firstOccurrences, ih htail, List.filter_eq_self.2]
      intro id hm
      have hne : id ≠ head := by
        intro e
        exact hhead (e ▸ hm)
      simpa using hne

/-- Behind a list, only what the list has not named yet occurs first. -/
theorem firstOccurrences_append (front back : List String) :
    firstOccurrences (front ++ back)
      = firstOccurrences front ++ (firstOccurrences back).filter fun id => !front.contains id := by
  induction front with
  | nil =>
      rw [List.nil_append, firstOccurrences, List.nil_append, List.filter_eq_self.2]
      intro id _
      rfl
  | cons head tail ih =>
      rw [List.cons_append, firstOccurrences, firstOccurrences, ih, List.filter_append,
        List.filter_filter, List.cons_append]
      congr 2
      apply List.filter_congr
      intro id _
      rw [List.contains_cons, Bool.not_or]
      rfl

/-! ## Settled orders -/

theorem settleOrder_perm (requested : List String) {known : List String} (hd : known.Nodup) :
    (settleOrder requested known).Perm known := by
  rw [List.perm_ext_iff_of_nodup (nodup_settleOrder requested hd) hd]
  intro id
  exact mem_settleOrder

/-- An order that lists every known id once is kept as requested. -/
theorem settleOrder_of_perm {requested known : List String} (hp : requested.Perm known)
    (hd : known.Nodup) : settleOrder requested known = requested := by
  have hlisted : requested.filter (fun id => known.contains id) = requested := by
    rw [List.filter_eq_self]
    intro id hm
    exact List.contains_iff_mem.2 (hp.subset hm)
  have hfirst : firstOccurrences requested = requested :=
    firstOccurrences_of_nodup (hp.nodup_iff.2 hd)
  -- nothing is left to append
  have hrest : known.filter (fun id => !requested.contains id) = [] := by
    rw [List.filter_eq_nil_iff]
    intro id hm
    have hid : id ∈ requested := hp.symm.subset hm
    simp [hid]
  rw [settleOrder, hlisted, hfirst, hrest, List.append_nil]

/-! ## Orders as arrangements -/

/-- Arranging distinct ids puts the listed ones first, each once. -/
theorem arrange_eq_firstOccurrences (listed : List String) {ids : List String} (hd : ids.Nodup) :
    Keyed.arrange id listed ids
      = firstOccurrences (listed.filter (fun other => ids.contains other) ++ ids) := by
  induction listed generalizing ids with
  | nil => rw [Keyed.arrange, List.filter_nil, List.nil_append, firstOccurrences_of_nodup hd]
  | cons head listed ih =>
      by_cases hm : head ∈ ids
      · -- a known id goes first, and both sides go on without it
        have hfind : Keyed.find? id head ids = some head :=
          Keyed.find?_of_mem (by simpa using hd) hm
        have herase : ids.eraseP (fun other => id other == head)
            = ids.filter fun other => other != head := by
          rw [← hd.erase_eq_filter head, List.erase_eq_eraseP']
          simp
        rw [Keyed.arrange, hfind]
        simp only
        rw [herase, ih (hd.filter _), List.filter_cons_of_pos (List.contains_iff_mem.2 hm),
          List.cons_append, firstOccurrences, ← firstOccurrences_filter, List.filter_append,
          List.filter_filter]
        congr 3
        apply List.filter_congr
        intro other _
        by_cases ho : other = head
        · simp [ho]
        · simp [ho]
      · -- an unknown id is skipped on both sides
        have hfind : Keyed.find? id head ids = none := by
          rw [← Option.not_isSome_iff_eq_none, Keyed.find?_isSome_iff]
          simpa using hm
        rw [Keyed.arrange, hfind, List.filter_cons_of_neg (by simpa using hm)]
        exact ih hd

namespace OrderPolicy

variable {α : Type} (key : α → String)

/-- The merged elements in emitted order, given the ids of the former region. -/
def arranged (policy : OrderPolicy) (former : List String) (items : List α) : List α :=
  match policy with
  | .generated => items
  | .preserve => Keyed.arrange key former items

variable {key}

theorem emission_perm (policy : OrderPolicy) {merged : List String} (former : List String)
    (hd : merged.Nodup) : (policy.emission merged former).Perm merged := by
  rw [List.perm_ext_iff_of_nodup (nodup_emission policy former hd) hd]
  intro id
  exact mem_emission

/-- **The preserved order**: first the former ids that are merged, in their former order,
and then the merged ids that are new, in theirs. -/
theorem emission_preserve {merged former : List String} (hm : merged.Nodup) (hf : former.Nodup) :
    emission .preserve merged former
      = former.filter (fun id => merged.contains id)
        ++ merged.filter fun id => !former.contains id := by
  have hkept : (former.filter fun id => merged.contains id).Nodup := hf.filter _
  rw [emission, firstOccurrences_append, firstOccurrences_of_nodup hkept,
    firstOccurrences_of_nodup hm]
  congr 1
  apply List.filter_congr
  intro id hid
  have hlisted : merged.contains id = true := List.contains_iff_mem.2 hid
  rw [Bool.not_inj_iff, Bool.eq_iff_iff, List.contains_iff_mem, List.contains_iff_mem,
    List.mem_filter]
  exact ⟨And.left, fun h => ⟨h, hlisted⟩⟩

theorem arranged_perm (policy : OrderPolicy) (former : List String) (items : List α) :
    (policy.arranged key former items).Perm items := by
  cases policy with
  | generated => exact List.Perm.refl items
  | preserve => exact Keyed.arrange_perm former items

theorem arranged_map {β : Type} {keyOf : β → String} {f : α → β}
    (hf : ∀ item, keyOf (f item) = key item) (policy : OrderPolicy) (former : List String)
    (items : List α) :
    policy.arranged keyOf former (items.map f) = (policy.arranged key former items).map f := by
  cases policy with
  | generated => rfl
  | preserve => exact Keyed.arrange_map hf former items

theorem find?_arranged (policy : OrderPolicy) (former : List String) (id : String)
    (items : List α) :
    Keyed.find? key id (policy.arranged key former items) = Keyed.find? key id items := by
  cases policy with
  | generated => rfl
  | preserve => exact Keyed.find?_arrange former id items

theorem arranged_arranged (policy : OrderPolicy) (former : List String) (items : List α) :
    policy.arranged key former (policy.arranged key former items)
      = policy.arranged key former items := by
  cases policy with
  | generated => rfl
  | preserve => exact Keyed.arrange_arrange former items

/-- The ids of an emission are those of the arrangement. -/
theorem emission_eq_map_arranged (policy : OrderPolicy) (former : List String) {items : List α}
    (hd : (items.map key).Nodup) :
    policy.emission (items.map key) former = (policy.arranged key former items).map key := by
  cases policy with
  | generated => rfl
  | preserve => rw [arranged, Keyed.map_arrange, arrange_eq_firstOccurrences former hd, emission]

/-- **What a merged region emits is an arrangement of its children.** -/
theorem pick_settleOrder_emission (policy : OrderPolicy) (former : List String) {items : List α}
    (hd : (items.map key).Nodup) :
    Keyed.pick key (settleOrder (policy.emission (items.map key) former) (items.map key)) items
      = policy.arranged key former items := by
  rw [settleOrder_of_perm (emission_perm policy former hd) hd,
    emission_eq_map_arranged policy former hd]
  exact Keyed.pick_keys_of_perm (arranged_perm policy former items) hd

end OrderPolicy

end Regeneration
