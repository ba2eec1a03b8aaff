import Mathlib.Data.List.Basic
import Regeneration.Segment.Error
import Regeneration.Proofs.Text.Pieces

/-!
# Reading the text of an address

A text reads as an address unless one of its dotted pieces is empty; the empty text is the
root's. What is read has that text and is plain: its ids are not empty and hold no dot. No
two plain addresses have one text, so the plain ones are those that reading gives back.

Of any other address the text is refused, or its ids come back cut at their dots. A single
empty id is the exception: its text is the root's.

Main statements: `read_eq_ok_iff` and `dotted_text`.
-/

set_option autoImplicit false

namespace Regeneration.Address

variable {text : String} {address : Address}

/-- No id is empty, and none holds a dot. -/
def Plain (address : Address) : Prop := ∀ id ∈ address.ids, id ≠ "" ∧ '.' ∉ id.toList

instance : DecidablePred Plain := fun address =>
  inferInstanceAs (Decidable (∀ id ∈ address.ids, id ≠ "" ∧ '.' ∉ id.toList))

/-- The address with every id cut at its dots. -/
def cut (address : Address) : Address :=
  ⟨address.ids.flatMap fun id => (id.toList.splitOn '.').map String.ofList⟩

/-! ## Texts of addresses -/

theorem toList_text (address : Address) :
    address.text.toList = ['.'].intercalate (address.ids.map String.toList) :=
  String.toList_ofList

/-- The root and the single empty id have one text. -/
theorem text_eq_empty_iff : address.text = "" ↔ address.ids = [] ∨ address.ids = [""] := by
  rw [← String.toList_eq_nil_iff, toList_text, Text.intercalate_eq_nil_iff]
  simp [List.map_eq_cons_iff]

/-- The pieces of the text are those of the ids. -/
theorem isPiece_text_iff (hne : address.ids ≠ []) {piece : List Char} :
    Text.IsPiece '.' address.text.toList piece ↔
      ∃ id ∈ address.ids, Text.IsPiece '.' id.toList piece := by
  have hids : address.ids.map String.toList ≠ [] := mt List.map_eq_nil_iff.1 hne
  simp only [← Text.mem_splitOn_iff, toList_text, Text.splitOn_intercalate_eq_flatMap hids,
    List.flatMap_map, List.mem_flatMap]

/-! ## Cut addresses -/

/-- It does not matter whether the ids are cut or their joined text. -/
theorem cut_single_text (hne : address.ids ≠ []) : (single address.text).cut = address.cut := by
  have hids : address.ids.map String.toList ≠ [] := mt List.map_eq_nil_iff.1 hne
  simp only [cut, single, List.flatMap_cons, List.flatMap_nil, List.append_nil, toList_text,
    Text.splitOn_intercalate_eq_flatMap hids, List.flatMap_map, List.map_flatMap]

/-- Cut ids hold no dot, and none is empty if no id has an empty piece. -/
theorem plain_cut (h : ∀ id ∈ address.ids, ¬ Text.IsPiece '.' id.toList []) :
    address.cut.Plain := by
  intro part hpart
  obtain ⟨id, hid, hpart⟩ := List.mem_flatMap.1 hpart
  obtain ⟨piece, hpiece, rfl⟩ := List.mem_map.1 hpart
  constructor
  · intro hempty
    rw [String.ofList_eq_empty_iff.1 hempty] at hpiece
    exact h id hid (Text.mem_splitOn_iff.1 hpiece)
  · rw [String.toList_ofList]
    exact Text.not_mem_of_mem_splitOn hpiece

theorem Plain.cut_eq (h : address.Plain) : address.cut = address := by
  have hids : ∀ id ∈ address.ids,
      (id.toList.splitOn '.').map String.ofList = [id] := by
    intro id hid
    rw [List.splitOn_eq_singleton (h id hid).2, List.map_singleton, String.ofList_toList]
  rw [cut, List.flatMap_congr hids, List.flatMap_singleton']

/-- The only piece of an id without dots is the id. -/
theorem Plain.not_isPiece (h : address.Plain) :
    ∀ id ∈ address.ids, ¬ Text.IsPiece '.' id.toList [] := by
  intro id hid hpiece
  rw [← Text.mem_splitOn_iff, List.splitOn_eq_singleton (h id hid).2, List.mem_singleton] at hpiece
  exact (h id hid).1 (String.toList_eq_nil_iff.1 hpiece.symm)

/-! ## What a text reads as -/

theorem ofText?_of_read (h : read text = .ok address) : ofText? text = some address := by
  rw [read] at h
  split at h
  · next found hfound =>
      cases h
      exact hfound
  · cases h

/-- A text is read by cutting it as the one id of an address. -/
theorem read_of_ne_empty (hne : text ≠ "") :
    read text = if [] ∈ text.toList.splitOn '.' then .error (.emptyId text)
      else .ok (single text).cut := by
  have hany : (text.toList.splitOn '.').any List.isEmpty = true ↔
      [] ∈ text.toList.splitOn '.' := by
    simp [List.any_eq_true, List.isEmpty_iff]
  rw [read, ofText?, if_neg (mt String.isEmpty_iff.1 hne)]
  by_cases hempty : [] ∈ text.toList.splitOn '.'
  · simp only [hany.2 hempty, hempty, if_true]
  · simp only [mt hany.1 hempty, hempty, if_false, Bool.false_eq_true, cut, single,
      List.flatMap_cons, List.flatMap_nil, List.append_nil]

/-- **A text is refused exactly if it has an empty piece** and is not empty itself. The error
holds the whole text. -/
theorem read_eq_error_iff {error : SegmentError} :
    read text = .error error ↔
      error = .emptyId text ∧ text ≠ "" ∧ Text.IsPiece '.' text.toList [] := by
  by_cases hne : text = ""
  · subst hne
    exact iff_of_false nofun fun h => h.2.1 rfl
  · rw [read_of_ne_empty hne, ← Text.mem_splitOn_iff]
    split
    · next hempty =>
        rw [Except.error.injEq]
        exact ⟨fun h => ⟨h.symm, hne, hempty⟩, fun h => h.1.symm⟩
    · next hempty => exact iff_of_false nofun fun h => hempty h.2.2

/-- An address of which no id has an empty piece comes back cut. -/
theorem read_text_cut (h : ∀ id ∈ address.ids, ¬ Text.IsPiece '.' id.toList []) :
    read address.text = .ok address.cut := by
  by_cases hids : address.ids = []
  · have hroot : address = root := congrArg Address.mk hids
    rw [hroot]
    rfl
  · have hne : address.text ≠ "" := by
      intro hempty
      rcases text_eq_empty_iff.1 hempty with hnil | hone
      · exact hids hnil
      · -- the empty id has an empty piece
        exact h "" (hone ▸ List.mem_singleton_self "") (Text.mem_splitOn_iff.1 (by decide))
    have hpiece : ¬ Text.IsPiece '.' address.text.toList [] := by
      rw [isPiece_text_iff hids]
      rintro ⟨id, hid, hpiece⟩
      exact h id hid hpiece
    rw [read_of_ne_empty hne, if_neg (mt Text.mem_splitOn_iff.1 hpiece), cut_single_text hids]

/-- With an id that has an empty piece the text is refused, unless the one id is empty. -/
theorem read_text_of_isPiece {id : String} (hone : address.ids ≠ [""]) (hid : id ∈ address.ids)
    (hpiece : Text.IsPiece '.' id.toList []) :
    read address.text = .error (.emptyId address.text) := by
  have hids : address.ids ≠ [] := List.ne_nil_of_mem hid
  refine read_eq_error_iff.2 ⟨rfl, ?_, (isPiece_text_iff hids).2 ⟨id, hid, hpiece⟩⟩
  intro hempty
  exact (text_eq_empty_iff.1 hempty).elim hids hone

/-- **A text reads as an address exactly if it is the text of that address and the address
is plain.** -/
theorem read_eq_ok_iff : read text = .ok address ↔ address.Plain ∧ address.text = text := by
  constructor
  · intro h
    refine ⟨?_, text_ofText? (ofText?_of_read h)⟩
    by_cases hne : text = ""
    · subst hne
      cases h
      exact nofun
    · rw [read_of_ne_empty hne] at h
      split at h
      · cases h
      · next hempty =>
          cases h
          refine plain_cut fun id hid hpiece => ?_
          rw [List.mem_singleton.1 hid] at hpiece
          exact hempty (Text.mem_splitOn_iff.2 hpiece)
  · rintro ⟨hplain, rfl⟩
    rw [read_text_cut hplain.not_isPiece, hplain.cut_eq]

/-- The texts that read are the empty one and those without an empty piece. -/
theorem exists_read_iff :
    (∃ found, read text = .ok found) ↔
      text = "" ∨ ∀ piece, Text.IsPiece '.' text.toList piece → piece ≠ [] := by
  constructor
  · rintro ⟨found, hread⟩
    by_cases hne : text = ""
    · exact .inl hne
    · refine .inr fun piece hpiece hempty => ?_
      subst hempty
      rw [read_eq_error_iff.2 ⟨rfl, hne, hpiece⟩] at hread
      cases hread
  · intro h
    cases hread : read text with
    | ok found => exact ⟨found, rfl⟩
    | error error =>
        obtain ⟨-, hne, hpiece⟩ := read_eq_error_iff.1 hread
        exact absurd rfl (h.resolve_left hne [] hpiece)

/-! ## Reading back -/

/-- What the text of an address reads as that is not plain. -/
theorem read_text_of_not_plain (h : ¬ address.Plain) :
    (address.ids ≠ [""] ∧ (∃ id ∈ address.ids, Text.IsPiece '.' id.toList []) ∧
        read address.text = .error (.emptyId address.text)) ∨
      ∃ other, other ≠ address ∧ read address.text = .ok other ∧
        other = if address.ids = [""] then root else address.cut := by
  -- an address that comes back is plain
  have hother : ∀ other, read address.text = .ok other → other ≠ address := by
    rintro other hread rfl
    exact h (read_eq_ok_iff.1 hread).1
  by_cases hone : address.ids = [""]
  · have hread : read address.text = .ok root := by
      rw [text_eq_empty_iff.2 (.inr hone)]
      rfl
    exact .inr ⟨root, hother root hread, hread, (if_pos hone).symm⟩
  · by_cases hpiece : ∃ id ∈ address.ids, Text.IsPiece '.' id.toList []
    · obtain ⟨id, hid, hempty⟩ := hpiece
      exact .inl ⟨hone, ⟨id, hid, hempty⟩, read_text_of_isPiece hone hid hempty⟩
    · have hread : read address.text = .ok address.cut :=
        read_text_cut fun id hid hempty => hpiece ⟨id, hid, hempty⟩
      exact .inr ⟨address.cut, hother address.cut hread, hread, (if_neg hone).symm⟩

example : read (Address.text ⟨[""]⟩) = .ok root := rfl

example : read (Address.text ⟨["class", ""]⟩) = .error (.emptyId "class.") := by decide

/-- Two plain addresses of one text are read from it, so they are one address. -/
theorem Plain.eq_of_text_eq {other : Address} (h : address.Plain) (ho : other.Plain)
    (htext : address.text = other.text) : address = other := by
  have hread : read other.text = .ok address := read_eq_ok_iff.2 ⟨h, htext⟩
  rw [read_eq_ok_iff.2 ⟨ho, rfl⟩] at hread
  exact (Except.ok.inj hread).symm

/-- **Addresses and their dotted texts.** A text reads exactly if it is empty or none of its
pieces between dots is, and what is read has this text. The text of an address reads as the
address exactly if no id is empty or holds a dot. Otherwise it is refused, because of an id
with an empty piece, or it reads as another address: that with the ids cut at their dots, or
the root for a single empty id. So no two plain addresses have one text. -/
theorem dotted_text (text : String) (address : Address) :
    ((∃ found, read text = .ok found) ↔
      text = "" ∨ ∀ piece, Text.IsPiece '.' text.toList piece → piece ≠ []) ∧
    (∀ found, read text = .ok found → found.text = text) ∧
    (read address.text = .ok address ↔ address.Plain) ∧
    (¬ address.Plain →
      (address.ids ≠ [""] ∧ (∃ id ∈ address.ids, Text.IsPiece '.' id.toList []) ∧
          read address.text = .error (.emptyId address.text)) ∨
        ∃ other, other ≠ address ∧ read address.text = .ok other ∧
          other = if address.ids = [""] then root else address.cut) ∧
    ∀ other : Address, address.Plain → other.Plain → address ≠ other →
      address.text ≠ other.text := by
  refine ⟨exists_read_iff, ?_, ?_, read_text_of_not_plain, ?_⟩
  · intro found hread
    exact (read_eq_ok_iff.1 hread).2
  · rw [read_eq_ok_iff]
    exact and_iff_left rfl
  · intro other hplain hother hne htext
    exact hne (hplain.eq_of_text_eq hother htext)

/-- Two addresses of one text, of which the plain one is read, and another text. -/
theorem dotted_text_methods :
    (∃ found, read "class.methods" = .ok found ∧ found.text = "class.methods") ∧
    ¬ Plain ⟨["class.methods"]⟩ ∧
    (∃ other, other ≠ ⟨["class.methods"]⟩ ∧ read "class.methods" = .ok other ∧
      other.ids = ["class", "methods"]) ∧
    Plain ⟨["class", "methods"]⟩ ∧ Plain ⟨["class", "methods", "getName"]⟩ ∧
    Address.text ⟨["class", "methods"]⟩ ≠ Address.text ⟨["class", "methods", "getName"]⟩ := by
  have hplain : Plain ⟨["class", "methods"]⟩ := by decide
  have hlonger : Plain ⟨["class", "methods", "getName"]⟩ := by decide
  have hdotted : ¬ Plain ⟨["class.methods"]⟩ := by decide
  have hread : read "class.methods" = .ok ⟨["class", "methods"]⟩ := by decide
  obtain ⟨-, htext, -, hcut, -⟩ := dotted_text "class.methods" ⟨["class.methods"]⟩
  refine ⟨⟨_, hread, htext _ hread⟩, hdotted, ?_, hplain, hlonger, ?_⟩
  · rcases hcut hdotted with ⟨-, -, herror⟩ | ⟨other, hne, hother, hids⟩
    · cases hread.symm.trans herror
    · exact ⟨other, hne, hother, congrArg Address.ids hids⟩
  · exact (dotted_text "" _).2.2.2.2 _ hplain hlonger (by decide)

end Regeneration.Address
