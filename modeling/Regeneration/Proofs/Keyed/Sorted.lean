import Mathlib.Data.List.Induction
import Mathlib.Data.List.Nodup
import Regeneration.Sorted
import Regeneration.Proofs.Keyed.Arrangement

/-!
# Lists in key order as finite maps

A list in the order of its keys is determined by what its keys find. So a list
built by putting elements one after another is known as soon as it is known which
element each key finds: the last one that was put with it.

Main statements: `eq_of_find?_eq` (look-ups determine the list), `find?_ofList`
(the last element of a key is found) and `ofList_of_increasing` (a list in order
stays what it is).
-/

set_option autoImplicit false

namespace Regeneration

namespace Keyed

variable {α : Type} {key : α → String}

/-- Among elements of distinct keys the order does not matter to a look-up. -/
theorem find?_perm {items others : List α} (hp : items.Perm others)
    (hd : (items.map key).Nodup) (id : String) : find? key id items = find? key id others := by
  cases h : find? key id items with
  | none =>
      have hnot : id ∉ others.map key := by
        rw [← (hp.map key).mem_iff, ← find?_isSome_iff, h]
        exact Bool.false_ne_true
      cases ho : find? key id others with
      | none => rfl
      | some other => exact absurd (find?_isSome_iff.1 (by rw [ho]; rfl)) hnot
  | some item =>
      have hm : item ∈ others := hp.subset (mem_of_find? h)
      have hdOthers : (others.map key).Nodup := (hp.map key).nodup_iff.1 hd
      rw [← key_of_find? h, find?_of_mem hdOthers hm]

end Keyed

namespace Sorted

variable {α : Type} {key : α → String}

theorem Increasing.nodup_keys {items : List α} (h : Increasing key items) :
    (items.map key).Nodup := by
  rw [List.Nodup, List.pairwise_map]
  refine List.Pairwise.imp ?_ h
  intro a b hlt he
  exact String.lt_irrefl _ (he ▸ hlt)

/-- Lists in key order with the same elements are equal. -/
theorem eq_of_mem_iff {items others : List α} (hi : Increasing key items)
    (ho : Increasing key others) (h : ∀ item, item ∈ items ↔ item ∈ others) : items = others := by
  have hperm : items.Perm others :=
    (List.perm_ext_iff_of_nodup hi.nodup_keys.of_map ho.nodup_keys.of_map).2 h
  refine List.Perm.eq_of_pairwise ?_ hi ho hperm
  intro a b _ _ hab hba
  exact absurd (String.lt_trans hab hba) (String.lt_irrefl _)

/-- **Look-ups determine a list in key order.** -/
theorem eq_of_find?_eq {items others : List α} (hi : Increasing key items)
    (ho : Increasing key others)
    (h : ∀ id, Keyed.find? key id items = Keyed.find? key id others) : items = others := by
  apply eq_of_mem_iff hi ho
  intro item
  constructor
  · intro hm
    exact Keyed.mem_of_find? ((h _).symm.trans (Keyed.find?_of_mem hi.nodup_keys hm))
  · intro hm
    exact Keyed.mem_of_find? ((h _).trans (Keyed.find?_of_mem ho.nodup_keys hm))

theorem ofList_append_singleton (items : List α) (item : α) :
    ofList key (items ++ [item]) = put key item (ofList key items) := by
  rw [ofList, List.foldl_append]
  rfl

/-- **The last element of a key is found.** -/
theorem find?_ofList (items : List α) (id : String) :
    Keyed.find? key id (ofList key items) = Keyed.find? key id items.reverse := by
  induction items using List.reverseRecOn with
  | nil => rfl
  | append_singleton items item ih =>
      rw [ofList_append_singleton, find?_put item _ id (increasing_ofList items), ih,
        List.reverse_concat, Keyed.find?_cons]
      simp only [eq_comm]

/-- Exactly the keys that were put are there. -/
theorem mem_keys_ofList {items : List α} {id : String} :
    id ∈ (ofList key items).map key ↔ id ∈ items.map key := by
  rw [← Keyed.find?_isSome_iff, find?_ofList, Keyed.find?_isSome_iff, List.map_reverse,
    List.mem_reverse]

theorem mem_of_mem_ofList {items : List α} {item : α} (h : item ∈ ofList key items) :
    item ∈ items := by
  have hfind := Keyed.find?_of_mem (increasing_ofList items).nodup_keys h
  rw [find?_ofList] at hfind
  exact List.mem_reverse.1 (Keyed.mem_of_find? hfind)

/-- **A list in key order stays what it is.** -/
theorem ofList_of_increasing {items : List α} (h : Increasing key items) :
    ofList key items = items := by
  apply eq_of_find?_eq (increasing_ofList items) h
  intro id
  rw [find?_ofList]
  exact (Keyed.find?_perm (List.reverse_perm items).symm h.nodup_keys id).symm

end Sorted

end Regeneration
