/-!
# Paths of generated files

Files are named by relative paths with forward slashes. Other spellings are
normalized: backslashes become slashes, and leading `./` and `/` are dropped as
often as they occur. A normalized path may name an output if it is not empty and
has no parent component.

Main statements: `normalize_normalize` (normalizing twice is normalizing once),
`backslash_not_mem_normalize`, `checked?_eq_some_iff` (what may name an output).
-/

set_option autoImplicit false

namespace Regeneration.Path

/-- Drops leading `./` and `/`, repeatedly. -/
def dropLead : List Char → List Char
  | '.' :: '/' :: rest => dropLead rest
  | '/' :: rest => dropLead rest
  | rest => rest

/-- A backslash turned into a slash. -/
def slash (c : Char) : Char := if c = '\\' then '/' else c

/-- The normalized characters of a path. -/
def normalizeChars (path : List Char) : List Char := dropLead (path.map slash)

/-- The relative spelling of a path with forward slashes. -/
def normalize (path : String) : String := String.ofList (normalizeChars path.toList)

/-- The components of a normalized path. -/
def components (path : String) : List (List Char) := path.toList.splitOn '/'

/-- The normalized path, if it may name an output: not empty and without a
parent component. -/
def checked? (path : String) : Option String :=
  let normalized := normalize path
  if normalized.isEmpty || (components normalized).contains ['.', '.'] then none
  else some normalized

theorem map_slash_of_not_mem {path : List Char} (h : '\\' ∉ path) : path.map slash = path := by
  induction path with
  | nil => rfl
  | cons c rest ih =>
      simp only [List.mem_cons, not_or] at h
      rw [List.map_cons, ih h.2, slash, if_neg (fun e => h.1 e.symm)]

theorem backslash_not_mem_map_slash (path : List Char) : '\\' ∉ path.map slash := by
  simp only [List.mem_map, not_exists, not_and]
  intro c _ h
  rw [slash] at h
  split at h
  · exact absurd h (by decide)
  · contradiction

/-- What is dropped is a leading part. -/
theorem dropLead_suffix (path : List Char) : dropLead path <:+ path := by
  fun_induction dropLead path with
  | case1 rest ih => exact (ih.trans (List.suffix_cons _ _)).trans (List.suffix_cons _ _)
  | case2 rest ih => exact ih.trans (List.suffix_cons _ _)
  | case3 rest => exact List.suffix_rfl

theorem dropLead_dropLead (path : List Char) : dropLead (dropLead path) = dropLead path := by
  fun_induction dropLead path with
  | case1 rest ih => exact ih
  | case2 rest ih => exact ih
  | case3 rest h₁ h₂ =>
      rw [dropLead]
      · exact h₁
      · exact h₂

/-- No backslash is left. -/
theorem backslash_not_mem_normalize (path : String) : '\\' ∉ (normalize path).toList := by
  rw [normalize, String.toList_ofList]
  exact fun h => backslash_not_mem_map_slash _ ((dropLead_suffix _).mem h)

/-- Normalizing twice is normalizing once. -/
@[simp] theorem normalize_normalize (path : String) :
    normalize (normalize path) = normalize path := by
  have h := map_slash_of_not_mem (backslash_not_mem_normalize path)
  rw [normalize] at h ⊢
  rw [String.toList_ofList] at h
  rw [normalize, String.toList_ofList, normalizeChars, h, normalizeChars, dropLead_dropLead]

/-- What may name an output: any path whose normalized spelling is not empty and
has no parent component. -/
theorem checked?_eq_some_iff {path checked : String} :
    checked? path = some checked ↔
      checked = normalize path ∧ normalize path ≠ "" ∧
        ['.', '.'] ∉ components (normalize path) := by
  rw [checked?]
  simp only [Option.ite_none_left_eq_some, Option.some.injEq, Bool.or_eq_true,
    List.contains_iff_mem, String.isEmpty_iff, not_or]
  exact ⟨fun h => ⟨h.2.symm, h.1⟩, fun h => ⟨h.2, h.1.symm⟩⟩

end Regeneration.Path
