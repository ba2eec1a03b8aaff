/-!
# The pieces of a text

Cutting a text at a separator gives its pieces: the stretches without the separator that
reach, on either side, up to an end of the text or to a separator. Joined texts are cut one
by one.

Main statements: `mem_splitOn_iff` and `splitOn_intercalate_eq_flatMap`.
-/

set_option autoImplicit false

namespace Regeneration.Text

variable {sep : Char}

/-- A stretch of a text without `sep`, with an end of the text or a `sep` on either side. -/
def IsPiece (sep : Char) (text piece : List Char) : Prop :=
  sep ∉ piece ∧ ∃ front back, text = front ++ piece ++ back ∧
    (front = [] ∨ [sep] <:+ front) ∧ (back = [] ∨ [sep] <+: back)

/-! ## Joining -/

/-- Only no texts or a single empty one join to nothing. -/
theorem intercalate_eq_nil_iff {texts : List (List Char)} :
    [sep].intercalate texts = [] ↔ texts = [] ∨ texts = [[]] := by
  cases texts with
  | nil => simp
  | cons text more =>
      cases more with
      | nil => simp
      | cons next rest => simp [List.intercalate_cons_cons]

/-- **Joined texts are cut one by one**, provided there is at least one. -/
theorem splitOn_intercalate_eq_flatMap {texts : List (List Char)} (hne : texts ≠ []) :
    ([sep].intercalate texts).splitOn sep = texts.flatMap (List.splitOn sep) := by
  induction texts with
  | nil => exact absurd rfl hne
  | cons text more ih =>
      cases more with
      | nil => simp
      | cons next rest =>
          rw [List.intercalate_cons_cons, List.append_assoc, List.singleton_append,
            List.splitOn_append_cons_self, ih (List.cons_ne_nil next rest)]
          rfl

/-! ## What cutting gives -/

/-- No piece holds the separator. -/
theorem not_mem_of_mem_splitOn {text piece : List Char} (h : piece ∈ text.splitOn sep) :
    sep ∉ piece := by
  induction text generalizing piece with
  | nil =>
      rw [List.splitOn_nil, List.mem_singleton] at h
      exact h ▸ List.not_mem_nil
  | cons c rest ih =>
      rw [List.splitOn_cons_eq_if_modifyHead] at h
      split at h
      · rcases List.mem_cons.1 h with rfl | h
        · exact List.not_mem_nil
        · exact ih h
      · next hc =>
          cases hrest : rest.splitOn sep with
          | nil => exact absurd hrest (List.splitOn_ne_nil sep rest)
          | cons first more =>
              rw [hrest] at h ih
              rcases List.mem_cons.1 h with rfl | h
              · have hne : sep ≠ c := fun he => hc (beq_iff_eq.2 he.symm)
                exact List.not_mem_cons_of_ne_of_not_mem hne (ih List.mem_cons_self)
              · exact ih (List.mem_cons_of_mem first h)

/-- A text without the separator is a piece of whatever it is joined into. -/
theorem isPiece_intercalate {pieces : List (List Char)} {piece : List Char}
    (hmem : piece ∈ pieces) (hsep : sep ∉ piece) :
    IsPiece sep ([sep].intercalate pieces) piece := by
  refine ⟨hsep, ?_⟩
  induction pieces with
  | nil => cases hmem
  | cons first more ih =>
      cases more with
      | nil =>
          rw [List.mem_singleton.1 hmem, List.intercalate_singleton]
          exact ⟨[], [], by simp, .inl rfl, .inl rfl⟩
      | cons next rest =>
          rw [List.intercalate_cons_cons]
          rcases List.mem_cons.1 hmem with rfl | hmem
          · exact ⟨[], [sep] ++ [sep].intercalate (next :: rest), List.append_assoc _ _ _, .inl rfl,
              .inr (List.prefix_append [sep] _)⟩
          · -- in front of the piece there is now also the first text with a separator
            obtain ⟨front, back, hjoin, hfront, hback⟩ := ih hmem
            refine ⟨first ++ [sep] ++ front, back, ?_, .inr ?_, hback⟩
            · rw [hjoin]
              simp only [List.append_assoc]
            · rcases hfront with rfl | hfront
              · rw [List.append_nil]
                exact List.suffix_append first [sep]
              · exact hfront.trans (List.suffix_append (first ++ [sep]) front)

/-- What follows a piece does not change that it is cut off first. -/
theorem mem_splitOn_append {piece back : List Char} (hsep : sep ∉ piece)
    (hback : back = [] ∨ [sep] <+: back) : piece ∈ (piece ++ back).splitOn sep := by
  rcases hback with rfl | ⟨rest, rfl⟩
  · rw [List.append_nil, List.splitOn_eq_singleton hsep]
    exact List.mem_singleton_self piece
  · rw [List.singleton_append, List.splitOn_append_cons_self_of_not_mem hsep]
    exact List.mem_cons_self

/-- **Cutting gives the pieces of the text.** -/
theorem mem_splitOn_iff {text piece : List Char} :
    piece ∈ text.splitOn sep ↔ IsPiece sep text piece := by
  constructor
  · intro hmem
    have hpiece := isPiece_intercalate hmem (not_mem_of_mem_splitOn hmem)
    rwa [List.intercalate_splitOn] at hpiece
  · rintro ⟨hsep, front, back, rfl, hfront, hback⟩
    rw [List.append_assoc]
    rcases hfront with rfl | ⟨before, rfl⟩
    · exact mem_splitOn_append hsep hback
    · rw [List.append_assoc, List.singleton_append, List.splitOn_append_cons_self]
      exact List.mem_append_right _ (mem_splitOn_append hsep hback)

end Regeneration.Text
