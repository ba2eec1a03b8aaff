import Regeneration.Keyed

/-!
# Lists in the order of their keys

Manifests, the files of a run and the members of a kept JSON object are lists in
which every key occurs once and the keys grow. Texts are compared character by
character, which is the order of their UTF-8 bytes.

Main statements: `mem_keys_put`, `increasing_put` (the order is kept),
`find?_put` (what a look-up gives after an element was put).
-/

set_option autoImplicit false

namespace Regeneration.Sorted

variable {α : Type} (key : α → String)

/-- Puts an element at its place, instead of an element with the same key. -/
def put (item : α) : List α → List α
  | [] => [item]
  | head :: rest =>
    if key item = key head then item :: rest
    else if key item < key head then item :: head :: rest
    else head :: put item rest

/-- Elements put one after another, so that the last one with a key is kept. -/
def ofList (items : List α) : List α :=
  items.foldl (fun sorted item => put key item sorted) []

/-- Keys that grow from each element to all later ones. -/
def Increasing (items : List α) : Prop := items.Pairwise fun a b => key a < key b

variable {key}

/-- Putting an element adds its key and no other. -/
theorem mem_keys_put {item : α} {items : List α} {id : String} :
    id ∈ (put key item items).map key ↔ id = key item ∨ id ∈ items.map key := by
  induction items with
  | nil => simp [put]
  | cons head rest ih =>
      rw [put]
      split
      · next h => simp [← h]
      · split
        · simp
        · simp only [List.map_cons, List.mem_cons, ih]
          exact ⟨fun h => h.elim (fun e => .inr (.inl e)) (Or.imp_right .inr),
            fun h => h.elim (fun e => .inr (.inl e)) (Or.imp_right .inr)⟩

theorem mem_put {item other : α} {items : List α} (h : other ∈ put key item items) :
    other = item ∨ other ∈ items := by
  induction items with
  | nil => exact .inl (List.mem_singleton.1 h)
  | cons head rest ih =>
      rw [put] at h
      split at h
      · exact (List.mem_cons.1 h).imp_right (List.mem_cons_of_mem head)
      · split at h
        · exact List.mem_cons.1 h
        · cases List.mem_cons.1 h with
          | inl e => exact .inr (e ▸ List.mem_cons_self)
          | inr h => exact (ih h).imp_right (List.mem_cons_of_mem head)

/-- Putting an element keeps the order. -/
theorem increasing_put {item : α} {items : List α} (h : Increasing key items) :
    Increasing key (put key item items) := by
  induction items with
  | nil => exact List.pairwise_singleton _ item
  | cons head rest ih =>
      obtain ⟨hhead, hrest⟩ := List.pairwise_cons.1 h
      rw [put]
      split
      · next he => exact List.pairwise_cons.2 ⟨fun b hb => he ▸ hhead b hb, hrest⟩
      · split
        · next hlt =>
            refine List.pairwise_cons.2 ⟨fun b hb => ?_, h⟩
            cases List.mem_cons.1 hb with
            | inl e => exact e ▸ hlt
            | inr hb => exact String.lt_trans hlt (hhead b hb)
        · next hne hlt =>
            refine List.pairwise_cons.2 ⟨fun b hb => ?_, ih hrest⟩
            cases mem_put hb with
            | inl e =>
                subst e
                exact Decidable.byContradiction fun h =>
                  hne (String.le_antisymm (String.not_lt.1 h) (String.not_lt.1 hlt))
            | inr hb => exact hhead b hb

theorem increasing_ofList (items : List α) : Increasing key (ofList key items) := by
  rw [ofList]
  suffices h : ∀ sorted, Increasing key sorted →
      Increasing key (items.foldl (fun sorted item => put key item sorted) sorted) from
    h [] List.Pairwise.nil
  induction items with
  | nil => exact fun _ h => h
  | cons item rest ih => exact fun sorted h => ih _ (increasing_put h)

/-- The put element is found under its key, and every other key finds what it
found before. -/
theorem find?_put (item : α) (items : List α) (id : String) (h : Increasing key items) :
    Keyed.find? key id (put key item items)
      = if id = key item then some item else Keyed.find? key id items := by
  induction items with
  | nil =>
      by_cases hid : id = key item
      · simp [put, Keyed.find?, hid]
      · simp [put, Keyed.find?, hid, Ne.symm hid]
  | cons head rest ih =>
      obtain ⟨hhead, hrest⟩ := List.pairwise_cons.1 h
      have ih := ih hrest
      simp only [Keyed.find?] at ih ⊢
      rw [put]
      split
      · next he =>
          by_cases hid : id = key item
          · simp [hid]
          · have hkey : ¬ key item = id := fun e => hid e.symm
            have hheadKey : ¬ key head = id := fun e => hid (e ▸ he.symm)
            simp [hid, hkey, hheadKey]
      · next hne =>
          split
          · by_cases hid : id = key item
            · simp [hid]
            · simp [hid, Ne.symm hid]
          · by_cases hid : key head = id
            · have : ¬ id = key item := fun e => hne (e ▸ hid.symm)
              simp [hid, this]
            · simp [hid, ih]

end Regeneration.Sorted
