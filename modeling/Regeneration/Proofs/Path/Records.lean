import Mathlib.Data.List.Basic
import Regeneration.Layout

/-!
# Records of different files have different paths

The path of a record is put together from a directory, the path of its file and a suffix,
whatever the layout has for them. Normalizing it can drop all of the directory, and of a
file named by a dot the name too. Still the records of different files have different
normalized paths.

Main statement: `Layout.normalize_recordPath_injective`.
-/

set_option autoImplicit false

namespace Regeneration

namespace Path

/-- Nothing is dropped exactly if there is no slash in front, nor behind a leading dot. -/
theorem dropLead_eq_self_iff {chars : List Char} :
    dropLead chars = chars ↔
      (∀ rest, chars ≠ '.' :: '/' :: rest) ∧ ∀ rest, chars ≠ '/' :: rest := by
  constructor
  · -- what is dropped would be missing
    intro h
    constructor
    · rintro rest rfl
      have hle := (dropLead_suffix rest).length_le
      rw [dropLead] at h
      rw [h, List.length_cons, List.length_cons] at hle
      omega
    · rintro rest rfl
      have hle := (dropLead_suffix rest).length_le
      rw [dropLead] at h
      rw [h, List.length_cons] at hle
      omega
  · rintro ⟨hdot, hslash⟩
    rw [dropLead]
    · exact hdot
    · exact hslash

/-- Of a directory either nothing is left, or it stays in front of what is below it. -/
theorem dropLead_below (directory : List Char) :
    (∀ rest, dropLead (directory ++ '/' :: rest) = dropLead rest) ∨
      ∃ kept, ∀ rest, dropLead (directory ++ '/' :: rest) = kept ++ '/' :: rest := by
  fun_induction dropLead directory with
  | case1 tail ih =>
      simp only [List.cons_append, dropLead]
      exact ih
  | case2 tail ih =>
      simp only [List.cons_append, dropLead]
      exact ih
  | case3 directory hdot hslash =>
      rcases directory with - | ⟨c, tail⟩
      · exact .inl fun rest => rfl
      by_cases hlead : c = '.' ∧ tail = []
      · obtain ⟨rfl, rfl⟩ := hlead
        exact .inl fun rest => rfl
      -- what stands in front is more than a dot, so no slash can come to the front
      refine .inr ⟨c :: tail, fun rest => dropLead_eq_self_iff.2 ⟨?_, ?_⟩⟩
      · intro more he
        obtain ⟨rfl, htail⟩ := List.cons.inj he
        rcases tail with - | ⟨d, others⟩
        · exact hlead ⟨rfl, rfl⟩
        · obtain ⟨rfl, -⟩ := List.cons.inj htail
          exact hdot others rfl
      · intro more he
        obtain ⟨rfl, -⟩ := List.cons.inj he
        exact hslash tail rfl

/-- What stands behind a normalized name leaves the name as it is, except that a slash
takes a single dot away. -/
theorem dropLead_append {name : List Char} (hnormal : dropLead name = name) (hne : name ≠ [])
    (rest : List Char) :
    dropLead (name ++ rest) = name ++ rest ∨
      name = ['.'] ∧ (dropLead (name ++ rest)).length < rest.length := by
  obtain ⟨hdot, hslash⟩ := dropLead_eq_self_iff.1 hnormal
  rcases name with - | ⟨c, tail⟩
  · exact absurd rfl hne
  by_cases hcut : ∃ more, c :: tail ++ rest = '.' :: '/' :: more
  · obtain ⟨more, hmore⟩ := hcut
    obtain ⟨rfl, hcut⟩ := List.cons.inj hmore
    rcases tail with - | ⟨d, others⟩
    · refine .inr ⟨rfl, ?_⟩
      have hrest : rest = '/' :: more := hcut
      have hle := (dropLead_suffix more).length_le
      rw [hmore, dropLead, hrest, List.length_cons]
      omega
    · obtain ⟨rfl, -⟩ := List.cons.inj hcut
      exact absurd rfl (hdot others)
  · left
    rw [dropLead_eq_self_iff]
    constructor
    · intro more he
      exact hcut ⟨more, he⟩
    · intro more he
      obtain ⟨rfl, -⟩ := List.cons.inj he
      exact hslash tail rfl

/-- Two normalized names with the same ending are told apart. -/
theorem dropLead_append_injective {name other rest : List Char} (hname : dropLead name = name)
    (hne : name ≠ []) (hother : dropLead other = other) (hneOther : other ≠ [])
    (h : dropLead (name ++ rest) = dropLead (other ++ rest)) : name = other := by
  rcases dropLead_append hname hne rest with hkept | ⟨hdot, hless⟩
  · rcases dropLead_append hother hneOther rest with hkeptOther | ⟨-, hlessOther⟩
    · rw [hkept, hkeptOther] at h
      exact List.append_cancel_right h
    · -- what lost its dot is too short
      rw [← h, hkept, List.length_append] at hlessOther
      omega
  · rcases dropLead_append hother hneOther rest with hkeptOther | ⟨hdotOther, -⟩
    · rw [h, hkeptOther, List.length_append] at hless
      omega
    · rw [hdot, hdotOther]

theorem dropLead_normalize (path : String) :
    dropLead (normalize path).toList = (normalize path).toList := by
  rw [normalize, String.toList_ofList, normalizeChars, dropLead_dropLead]

end Path

namespace Layout

theorem toList_normalize_recordPath (layout : Layout) (path : String) :
    (Path.normalize (layout.recordPath path)).toList
      = Path.dropLead (layout.directory.toList.map Path.slash ++ '/' ::
          ((Path.normalize path).toList ++ layout.suffix.toList.map Path.slash)) := by
  have hname := Path.map_slash_of_not_mem (Path.backslash_not_mem_normalize path)
  rw [Path.normalize, String.toList_ofList, Path.normalizeChars, recordPath,
    String.toList_append, String.toList_append, String.toList_append, List.map_append,
    List.map_append, List.map_append, hname, List.append_assoc, List.append_assoc]
  rfl

/-- **Different files have different records**, in every layout and every spelling. -/
theorem normalize_recordPath_injective (layout : Layout) {path other : String}
    (hpath : Path.normalize path ≠ "") (hother : Path.normalize other ≠ "")
    (h : Path.normalize (layout.recordPath path) = Path.normalize (layout.recordPath other)) :
    Path.normalize path = Path.normalize other := by
  have hchars := congrArg String.toList h
  rw [toList_normalize_recordPath, toList_normalize_recordPath] at hchars
  apply String.toList_injective
  rcases Path.dropLead_below (layout.directory.toList.map Path.slash) with hgone | ⟨kept, hkept⟩
  · rw [hgone, hgone] at hchars
    apply Path.dropLead_append_injective (Path.dropLead_normalize path) _
      (Path.dropLead_normalize other) _ hchars
    · simpa using hpath
    · simpa using hother
  · rw [hkept, hkept] at hchars
    have hbelow := (List.cons.inj (List.append_cancel_left hchars)).2
    exact List.append_cancel_right hbelow

end Layout

end Regeneration
