/-!
# Computations that may fail

What a computation of several steps gave was given by its last step, from what the
steps before gave. What was computed for a list was computed for its elements.
-/

set_option autoImplicit false

namespace Regeneration.Outcome

variable {ε α β : Type}

/-- A sequence of two steps succeeds if both do. -/
theorem bind_eq_ok {first : Except ε α} {next : α → Except ε β} {result : β} :
    first >>= next = .ok result ↔ ∃ middle, first = .ok middle ∧ next middle = .ok result := by
  cases first with
  | error problem => simp [bind, Except.bind]
  | ok middle => simp [bind, Except.bind]

/-- Every result was computed from an element. -/
theorem mem_of_mapM {compute : α → Except ε β} {items : List α} {results : List β}
    (h : items.mapM compute = .ok results) :
    ∀ result ∈ results, ∃ item ∈ items, compute item = .ok result := by
  induction items generalizing results with
  | nil =>
      cases h
      exact fun _ hm => nomatch hm
  | cons item rest ih =>
      rw [List.mapM_cons] at h
      obtain ⟨head, hitem, h⟩ := bind_eq_ok.1 h
      obtain ⟨tail, hrest, h⟩ := bind_eq_ok.1 h
      cases h
      intro result hm
      rcases List.mem_cons.1 hm with rfl | hm
      · exact ⟨item, List.mem_cons_self, hitem⟩
      · obtain ⟨other, ho, hresult⟩ := ih hrest result hm
        exact ⟨other, List.mem_cons_of_mem item ho, hresult⟩

end Regeneration.Outcome
