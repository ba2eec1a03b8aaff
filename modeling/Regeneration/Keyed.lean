/-!
# Lists whose elements carry a key

The children of a container are a list in which every element has an id. This
module holds what such lists need, for any element type and key: looking an
element up, choosing elements in a requested order, moving listed elements to
the front, and dropping later elements whose key is taken.

Main statements: `key_of_find?` (a looked-up element has the key asked for),
`pick_keys` (choosing by the present keys in order), `arrange_perm` (arranging
loses and invents nothing).
-/

set_option autoImplicit false

namespace Regeneration.Keyed

variable {α : Type} (key : α → String)

/-- The first element with the given key. -/
def find? (id : String) (items : List α) : Option α :=
  items.find? fun item => key item == id

/-- Whether an element has the given key. -/
def contains (id : String) (items : List α) : Bool :=
  items.any fun item => key item == id

/-- The elements named by `order`, in that order; names without an element are
passed over. -/
def pick (order : List String) (items : List α) : List α :=
  order.filterMap fun id => find? key id items

/-- The listed elements first, in the order listed, each taken out of the list
when its turn comes; the others follow in their own order. -/
def arrange : List String → List α → List α
  | [], items => items
  | id :: order, items =>
    match find? key id items with
    | some item => item :: arrange order (items.eraseP fun other => key other == id)
    | none => arrange order items

/-- The list without every element whose key an earlier element has. -/
def keepFirst : List α → List α
  | [] => []
  | item :: rest => item :: (keepFirst rest).filter fun other => key other != key item

variable {key}

theorem key_of_find? {id : String} {items : List α} {item : α}
    (h : find? key id items = some item) : key item = id := by
  simpa using List.find?_some h

theorem mem_of_find? {id : String} {items : List α} {item : α}
    (h : find? key id items = some item) : item ∈ items :=
  List.mem_of_find?_eq_some h

/-- A key is found exactly if some element has it. -/
theorem find?_isSome_iff {id : String} {items : List α} :
    (find? key id items).isSome ↔ id ∈ items.map key := by
  simp [find?, List.find?_isSome]

theorem contains_iff {id : String} {items : List α} :
    contains key id items = true ↔ id ∈ items.map key := by
  simp [contains]

/-- The keys of the chosen elements are the requested keys that are present. -/
theorem pick_keys (order : List String) (items : List α) :
    (pick key order items).map key = order.filter fun id => contains key id items := by
  induction order with
  | nil => rfl
  | cons id order ih =>
      simp only [pick, List.filterMap_cons, List.filter_cons] at ih ⊢
      cases h : find? key id items with
      | none =>
          have : contains key id items = false := by
            rw [Bool.eq_false_iff, Ne, contains_iff, ← find?_isSome_iff, h]
            simp
          simp [this, ih]
      | some item =>
          have : contains key id items = true := by
            rw [contains_iff, ← find?_isSome_iff, h]
            simp
          simp [this, ih, key_of_find? h]

/-- Arranging permutes the list. -/
theorem arrange_perm (order : List String) (items : List α) :
    (arrange key order items).Perm items := by
  induction order generalizing items with
  | nil => exact .refl items
  | cons id order ih =>
      rw [arrange]
      cases h : find? key id items with
      | none => exact ih items
      | some item =>
          refine ((ih _).cons item).trans ?_
          clear ih
          induction items with
          | nil => simp [find?] at h
          | cons head tail ihTail =>
              by_cases hk : key head = id
              · simp only [find?, hk, BEq.rfl, List.find?_cons_of_pos, Option.some.injEq] at h
                simp [← h, hk]
              · have h' : find? key id tail = some item := by
                  simpa [find?, hk] using h
                rw [List.eraseP_cons_of_neg (by simpa using hk)]
                exact (List.Perm.swap head item _).trans ((ihTail h').cons head)

end Regeneration.Keyed
