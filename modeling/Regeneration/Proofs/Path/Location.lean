import Regeneration.Path

/-!
# Locations of paths

Below a directory a path leads to the place that its components name; empty components
and single dots lead nowhere. Normalized paths are compared as strings, so two of them
can name one place in different spellings. In canonical spelling, without such
components, they cannot.

Main statements: `eq_of_location_eq` and `normalize_of_plain`.
-/

set_option autoImplicit false

namespace Regeneration.Path

/-- Whether a component leads somewhere: not an empty one and not a single dot. -/
def leads (component : List Char) : Bool := component != [] && component != ['.']

/-- The names that lead to the place of a path below a directory. -/
def location (path : String) : List (List Char) := (components (normalize path)).filter leads

/-- Paths of which every component leads somewhere. -/
def Canonical (path : String) : Prop := ∀ component ∈ components path, leads component = true

instance (path : String) : Decidable (Canonical path) :=
  inferInstanceAs (Decidable (∀ component ∈ components path, leads component = true))

theorem components_injective {path other : String} (h : components path = components other) :
    path = other := by
  have hchars := congrArg ['/'].intercalate h
  rw [components, components, List.intercalate_splitOn, List.intercalate_splitOn] at hchars
  exact String.toList_injective hchars

/-- **Canonical spellings of one place are equal.** -/
theorem eq_of_location_eq {path other : String} (hp : Canonical (normalize path))
    (ho : Canonical (normalize other)) (h : location path = location other) :
    normalize path = normalize other := by
  rw [location, location, List.filter_eq_self.2 hp, List.filter_eq_self.2 ho] at h
  exact components_injective h

/-- Spellings of one path lead to one place. -/
@[simp] theorem location_normalize (path : String) : location (normalize path) = location path := by
  rw [location, normalize_normalize, location]

/-- A path that begins with a name, and has no backslash, is normalized. -/
theorem normalize_of_plain {path : String} {c : Char} {rest : List Char}
    (h : path.toList = c :: rest) (hslash : c ≠ '/') (hdot : c ≠ '.') (hb : '\\' ∉ path.toList) :
    normalize path = path := by
  have hdrop : dropLead (c :: rest) = c :: rest := by
    rw [dropLead]
    · intro _ he
      exact hdot (List.cons.inj he).1
    · intro _ he
      exact hslash (List.cons.inj he).1
  rw [normalize, normalizeChars, map_slash_of_not_mem hb, h, hdrop, ← h, String.ofList_toList]

end Regeneration.Path
