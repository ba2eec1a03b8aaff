/-!
# Addresses of segments

An address lists the ids that lead from the root of a file's tree down to one of
its segments. Its text has the ids separated by dots, and the empty text stands
for the root. Ids are opaque, so the dot is the only character with a meaning.

Main statement: `text_ofText?`, a text that reads as an address is that
address's text.
-/

set_option autoImplicit false

namespace Regeneration

/-- The ids from the root's child downwards; no id for the root itself. -/
structure Address where
  ids : List String
  deriving DecidableEq, Inhabited, Repr

namespace Address

/-- The address of the root. -/
def root : Address := ⟨[]⟩

/-- The address of a child of the root. -/
def single (id : String) : Address := ⟨[id]⟩

/-- The dotted text of an address. -/
def text (address : Address) : String :=
  String.ofList (['.'].intercalate (address.ids.map String.toList))

/-- Reads a dotted text. The empty text is the root; otherwise no id may be
empty. -/
def ofText? (text : String) : Option Address :=
  if text.isEmpty then some root
  else
    let ids := text.toList.splitOn '.'
    if ids.any List.isEmpty then none else some ⟨ids.map String.ofList⟩

/-- Whether the address is the root's. -/
def isRoot (address : Address) : Bool := address.ids.isEmpty

/-- Writing what was read gives the text back. -/
theorem text_ofText? {text : String} {address : Address} (h : ofText? text = some address) :
    address.text = text := by
  rw [ofText?] at h
  split at h
  · next he =>
      cases h
      have : text = "" := String.isEmpty_iff.1 he
      simp [Address.text, root, this]
  · simp only at h
    split at h
    · cases h
    · cases h
      simp [Address.text, Function.comp_def]

end Address

end Regeneration
