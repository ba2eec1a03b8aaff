import Mathlib.Data.List.Nodup
import Regeneration.Keyed

/-!
# Arranging keyed lists

Looking up, choosing, arranging and dropping repeated keys commute with any map
that keeps the keys, and none of them but the choice disturbs a look-up. In a
list of distinct keys a permutation is determined by its keys: arranging by them
gives the permutation back.

Main statements: `find?_arrange` (arranging never changes what a key finds),
`arrange_keys_of_perm` (the keys of a permutation arrange to it) and
`pick_eq_arrange` (choosing by all the keys is arranging by them).
-/

set_option autoImplicit false

namespace Regeneration.Keyed

variable {α β : Type} {key : α → String} {keyOf : β → String}

/-! ## Maps that keep the keys -/

section Maps

variable {f : α → β} (hf : ∀ item, keyOf (f item) = key item)

include hf

theorem find?_map (id : String) (items : List α) :
    find? keyOf id (items.map f) = (find? key id items).map f := by
  simp only [find?, List.find?_map, Function.comp_def, hf]

theorem contains_map (id : String) (items : List α) :
    contains keyOf id (items.map f) = contains key id items := by
  simp only [contains, List.any_map, Function.comp_def, hf]

theorem pick_map (order : List String) (items : List α) :
    pick keyOf order (items.map f) = (pick key order items).map f := by
  induction order with
  | nil => rfl
  | cons id order ih =>
      simp only [pick, List.filterMap_cons, find?_map hf] at ih ⊢
      cases find? key id items with
      | none => exact ih
      | some item => simp [ih]

theorem arrange_map (order : List String) (items : List α) :
    arrange keyOf order (items.map f) = (arrange key order items).map f := by
  induction order generalizing items with
  | nil => rfl
  | cons id order ih =>
      rw [arrange, arrange, find?_map hf]
      cases find? key id items with
      | none => exact ih items
      | some item =>
          simp only [Option.map_some, List.map_cons, List.eraseP_map, Function.comp_def, hf]
          rw [ih]

theorem keepFirst_map (items : List α) :
    keepFirst keyOf (items.map f) = (keepFirst key items).map f := by
  induction items with
  | nil => rfl
  | cons head tail ih =>
      simp only [List.map_cons, keepFirst, ih, List.filter_map, Function.comp_def, hf]

end Maps

/-! ## Looking up in what was arranged -/

theorem find?_cons (id : String) (head : α) (tail : List α) :
    find? key id (head :: tail) = if key head = id then some head else find? key id tail := by
  by_cases h : key head = id
  · simp [find?, h]
  · simp [find?, h]

/-- Taking out the element of one key leaves the others where they are found. -/
theorem find?_eraseP {id other : String} (h : id ≠ other) (items : List α) :
    find? key id (items.eraseP fun item => key item == other) = find? key id items := by
  induction items with
  | nil => rfl
  | cons head tail ih =>
      by_cases hk : key head = other
      · -- the head goes, and it was not what the other key finds
        have hid : key head ≠ id := by
          intro e
          exact h (e.symm.trans hk)
        rw [List.eraseP_cons_of_pos (by simpa using hk), find?_cons, if_neg hid]
      · rw [List.eraseP_cons_of_neg (by simpa using hk), find?_cons, find?_cons, ih]

/-- Arranging never changes what a key finds, repeated keys included: the first
element of a key stays the first. -/
theorem find?_arrange (order : List String) (id : String) (items : List α) :
    find? key id (arrange key order items) = find? key id items := by
  induction order generalizing items with
  | nil => rfl
  | cons next order ih =>
      rw [arrange]
      cases h : find? key next items with
      | none => exact ih items
      | some item =>
          have hkey := key_of_find? h
          by_cases hid : id = next
          · -- the listed key finds the element moved to the front
            subst hid
            rw [h, find?_cons, if_pos hkey]
          · have hne : key item ≠ id := by
              intro e
              exact hid (e.symm.trans hkey)
            simp only [find?_cons, if_neg hne]
            rw [ih, find?_eraseP hid]

/-- Dropping later elements of a taken key never changes what a key finds. -/
theorem find?_keepFirst (id : String) (items : List α) :
    find? key id (keepFirst key items) = find? key id items := by
  induction items with
  | nil => rfl
  | cons head tail ih =>
      rw [keepFirst, find?_cons, find?_cons]
      split
      · rfl
      · -- what the head displaces has the head's key, not the key looked for
        next hne =>
          rw [← ih, find?, List.find?_filter, find?]
          congr 1
          funext item
          by_cases hk : key item = id
          · simp [hk, Ne.symm hne]
          · simp [hk]

/-! ## Distinct keys -/

theorem find?_of_mem {items : List α} (hd : (items.map key).Nodup) {item : α}
    (hm : item ∈ items) : find? key (key item) items = some item := by
  induction items with
  | nil => cases hm
  | cons head tail ih =>
      obtain ⟨hhead, htail⟩ := List.nodup_cons.1 hd
      rw [find?_cons]
      rcases List.mem_cons.1 hm with rfl | hm
      · rw [if_pos rfl]
      · have hne : key head ≠ key item := by
          intro e
          exact hhead (e ▸ List.mem_map_of_mem hm)
        rw [if_neg hne]
        exact ih htail hm

theorem keepFirst_of_nodup {items : List α} (hd : (items.map key).Nodup) :
    keepFirst key items = items := by
  induction items with
  | nil => rfl
  | cons head tail ih =>
      obtain ⟨hhead, htail⟩ := List.nodup_cons.1 hd
      rw [keepFirst, ih htail, List.filter_eq_self.2]
      intro item hm
      have hne : key item ≠ key head := by
        intro e
        exact hhead (e ▸ List.mem_map_of_mem hm)
      simpa using hne

/-- A function is the same on two lists of the same keys if it is on elements of one key. -/
theorem map_eq_of_keys {f : α → β} {items others : List α} (hkeys : items.map key = others.map key)
    (h : ∀ item ∈ items, ∀ other ∈ others, key item = key other → f item = f other) :
    items.map f = others.map f := by
  have hlength : items.length = others.length := by simpa using congrArg List.length hkeys
  apply List.ext_getElem (by simpa using hlength)
  intro i hi ho
  rw [List.length_map] at hi ho
  have hkey : key items[i] = key others[i] := by
    have hget := congrArg (fun keys => keys[i]?) hkeys
    simpa [hi, ho] using hget
  rw [List.getElem_map, List.getElem_map]
  exact h _ (List.getElem_mem hi) _ (List.getElem_mem ho) hkey

/-- A found element and the rest make up the list. -/
theorem perm_cons_eraseP {id : String} {items : List α} {item : α}
    (h : find? key id items = some item) :
    items.Perm (item :: items.eraseP fun other => key other == id) := by
  induction items with
  | nil => cases h
  | cons head tail ih =>
      rw [find?_cons] at h
      split at h
      · next hk =>
          cases h
          rw [List.eraseP_cons_of_pos (by simpa using hk)]
      · next hk =>
          rw [List.eraseP_cons_of_neg (by simpa using hk)]
          exact ((ih h).cons head).trans (List.Perm.swap item head _)

/-- **A permutation is determined by its keys.** -/
theorem arrange_keys_of_perm {arranged items : List α} (hp : arranged.Perm items)
    (hd : (items.map key).Nodup) : arrange key (arranged.map key) items = arranged := by
  induction arranged generalizing items with
  | nil => rw [List.nil_perm.1 hp, List.map_nil, arrange]
  | cons head tail ih =>
      have hfind := find?_of_mem hd (hp.subset List.mem_cons_self)
      -- without the head on both sides a permutation remains
      have hrest := (hp.trans (perm_cons_eraseP hfind)).cons_inv
      have hdTail : (tail.map key).Nodup :=
        (List.nodup_cons.1 (((hp.map key).nodup_iff).2 hd)).2
      simp only [List.map_cons, arrange, hfind]
      rw [ih hrest ((hrest.map key).nodup_iff.1 hdTail)]

theorem nodup_arrange {items : List α} (hd : (items.map key).Nodup) (order : List String) :
    ((arrange key order items).map key).Nodup :=
  ((arrange_perm order items).map key).nodup_iff.2 hd

/-- The keys arrange as the elements do. -/
theorem map_arrange (order : List String) (items : List α) :
    (arrange key order items).map key = arrange id order (items.map key) := by
  have hid : ∀ item, id (key item) = key item := by
    intro item
    rfl
  exact (arrange_map hid order items).symm

/-- Choosing by the keys of a permutation gives that permutation. -/
theorem pick_keys_of_perm {arranged items : List α} (hp : arranged.Perm items)
    (hd : (items.map key).Nodup) : pick key (arranged.map key) items = arranged := by
  have hfind : ∀ item ∈ arranged, find? key (key item) items = some item := by
    intro item hm
    exact find?_of_mem hd (hp.subset hm)
  -- only the look-ups matter from here on, so that the tail is a case of its own
  clear hp
  induction arranged with
  | nil => rfl
  | cons head tail ih =>
      have htail : pick key (tail.map key) items = tail := by
        apply ih
        intro item hm
        exact hfind item (List.mem_cons_of_mem head hm)
      simp only [pick, List.map_cons, List.filterMap_cons, hfind head List.mem_cons_self] at htail ⊢
      rw [htail]

/-- A permutation of the keys is the keys of a permutation. -/
theorem exists_perm_of_keys {order : List String} {items : List α}
    (hp : order.Perm (items.map key)) :
    ∃ arranged : List α, arranged.Perm items ∧ arranged.map key = order := by
  induction order generalizing items with
  | nil =>
      have hnil : items = [] := List.map_eq_nil_iff.1 (List.nil_perm.1 hp)
      exact ⟨[], hnil ▸ List.Perm.refl _, rfl⟩
  | cons id order ih =>
      obtain ⟨item, hfind⟩ := Option.isSome_iff_exists.1
        (find?_isSome_iff.2 (hp.subset List.mem_cons_self))
      -- the found element goes first, and the other ids are keys of the rest
      have hsplit := perm_cons_eraseP hfind
      have hkey := key_of_find? hfind
      have hrest := hp.trans (hsplit.map key)
      rw [List.map_cons, hkey] at hrest
      obtain ⟨arranged, ha, hkeys⟩ := ih hrest.cons_inv
      exact ⟨item :: arranged, (ha.cons item).trans hsplit.symm, by rw [List.map_cons, hkey, hkeys]⟩

/-- **Choosing by all the keys is arranging by them.** -/
theorem pick_eq_arrange {order : List String} {items : List α}
    (hp : order.Perm (items.map key)) (hd : (items.map key).Nodup) :
    pick key order items = arrange key order items := by
  obtain ⟨arranged, ha, rfl⟩ := exists_perm_of_keys hp
  rw [pick_keys_of_perm ha hd, arrange_keys_of_perm ha hd]

/-- Arranging twice by one order is arranging once. -/
theorem arrange_arrange (order : List String) (items : List α) :
    arrange key order (arrange key order items) = arrange key order items := by
  induction order generalizing items with
  | nil => rfl
  | cons next order ih =>
      cases h : find? key next items with
      | none =>
          -- an id that finds nothing finds nothing after arranging either
          have hskip : arrange key (next :: order) items = arrange key order items := by
            rw [arrange, h]
          rw [hskip, arrange, find?_arrange, h]
          exact ih items
      | some item =>
          -- the element in front is found first and taken out again
          have hkey := key_of_find? h
          have hfront : arrange key (next :: order) items
              = item :: arrange key order (items.eraseP fun other => key other == next) := by
            rw [arrange, h]
          rw [hfront, arrange, find?_cons, if_pos hkey]
          simp only
          rw [List.eraseP_cons_of_pos (by simpa using hkey), ih]

end Regeneration.Keyed
