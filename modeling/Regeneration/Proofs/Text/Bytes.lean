import Mathlib.Data.String.Basic

/-!
# The order of texts and of their bytes

Texts are ordered character by character, the first difference deciding. Their UTF-8 bytes
are ordered the same way: of two characters, the smaller one is spelled with fewer bytes or
with smaller ones, so the spellings differ at some byte, and the first such decides as the
characters do.

Main statement: `lt_iff_bytes_lt`. Two characters are compared by `below_encode`.
-/

set_option autoImplicit false

namespace Regeneration.Text

/-- The UTF-8 bytes of a text. -/
def bytes (text : String) : List UInt8 := text.toUTF8.data.toList

theorem bytes_eq_flatMap (text : String) :
    bytes text = text.toList.flatMap String.utf8EncodeChar := by
  conv_lhs => rw [← String.ofList_toList (s := text)]
  rw [bytes, String.toUTF8, String.toByteArray_ofList, List.utf8Encode]
  simp

/-- Bytes that differ from others at some place, at the first of which they are smaller. What
comes behind does not matter. -/
inductive Below : List UInt8 → List UInt8 → Prop where
  | head {low high : UInt8} (rest others : List UInt8) (smaller : low < high) :
      Below (low :: rest) (high :: others)
  | tail (byte : UInt8) {rest others : List UInt8} (below : Below rest others) :
      Below (byte :: rest) (byte :: others)

theorem Below.append_lt {front others : List UInt8} (h : Below front others)
    (rest more : List UInt8) : front ++ rest < others ++ more := by
  induction h with
  | head _ _ smaller => exact List.Lex.rel smaller
  | tail byte _ ih => exact List.Lex.cons ih

/-- A first byte that is smaller decides. -/
theorem Below.first {low high : Nat} {rest others : List UInt8} (hlt : low < high)
    (hbyte : high < 256) : Below (UInt8.ofNat low :: rest) (UInt8.ofNat high :: others) := by
  apply Below.head
  rw [UInt8.lt_iff_toNat_lt, UInt8.toNat_ofNat', UInt8.toNat_ofNat', Nat.mod_eq_of_lt hbyte,
    Nat.mod_eq_of_lt (Nat.lt_trans hlt hbyte)]
  exact hlt

/-- A first byte that is not greater decides, or leaves it to the bytes behind. -/
theorem Below.next {low high : Nat} {rest others : List UInt8} (hle : low ≤ high)
    (hbyte : high < 256) (hrest : low = high → Below rest others) :
    Below (UInt8.ofNat low :: rest) (UInt8.ofNat high :: others) := by
  rcases Nat.lt_or_eq_of_le hle with hlt | rfl
  · exact Below.first hlt hbyte
  · exact Below.tail _ (hrest rfl)

/-- **The bytes of a smaller character are smaller.** -/
theorem below_encode {c d : Char} (h : c < d) :
    Below (String.utf8EncodeChar c) (String.utf8EncodeChar d) := by
  have hlt : c.val.toNat < d.val.toNat := h
  have hbound : d.val.toNat < 1114112 := by
    rcases d.valid with hv | ⟨-, hv⟩
    · exact Nat.lt_trans hv (by decide)
    · exact hv
  rw [String.utf8EncodeChar, String.utf8EncodeChar]
  generalize c.val.toNat = m at hlt
  generalize d.val.toNat = n at hlt hbound
  split_ifs
  -- a smaller character has no more bytes, and if it has fewer the first one is smaller
  any_goals (exfalso; omega)
  any_goals (apply Below.first <;> omega)
  · exact Below.next (by omega) (by omega) fun _ => Below.first (by omega) (by omega)
  · exact Below.next (by omega) (by omega) fun _ => Below.next (by omega) (by omega) fun _ =>
      Below.first (by omega) (by omega)
  · exact Below.next (by omega) (by omega) fun _ => Below.next (by omega) (by omega) fun _ =>
      Below.next (by omega) (by omega) fun _ => Below.first (by omega) (by omega)

theorem bytes_lt_of_lt {text other : String} (h : text < other) : bytes text < bytes other := by
  have hchars : List.Lex (· < ·) text.toList other.toList := String.lt_iff_toList_lt.1 h
  rw [bytes_eq_flatMap, bytes_eq_flatMap]
  generalize text.toList = chars, other.toList = others at hchars
  induction hchars with
  | @nil c rest =>
      obtain ⟨byte, more, hc⟩ := List.exists_cons_of_ne_nil (@String.utf8EncodeChar_ne_nil c)
      rw [List.flatMap_nil, List.flatMap_cons, hc]
      exact List.Lex.nil
  | rel hlt =>
      rw [List.flatMap_cons, List.flatMap_cons]
      exact (below_encode hlt).append_lt _ _
  | cons _ ih =>
      rw [List.flatMap_cons, List.flatMap_cons]
      exact List.Lex.append_left _ ih _

/-- **Texts are in the order of their bytes.** -/
theorem lt_iff_bytes_lt {text other : String} : text < other ↔ bytes text < bytes other := by
  refine ⟨bytes_lt_of_lt, fun h => ?_⟩
  rcases lt_trichotomy text other with hlt | rfl | hgt
  · exact hlt
  · exact absurd h (List.lt_irrefl _)
  · exact absurd (bytes_lt_of_lt hgt) (List.lt_asymm h)

end Regeneration.Text
