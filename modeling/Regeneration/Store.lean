import Regeneration.Disk.Fault
import Regeneration.Model

/-!
# Texts kept in memory

A store keeps texts by path, in any spelling. It can be read like a disk on which
nothing ever fails.

Main statement: `get?_put`, what is found after a text was put.
-/

set_option autoImplicit false

namespace Regeneration

/-- How texts are read: none if there is nothing at the path. -/
abbrev Source := String → Except DiskFault (Option String)

/-- Texts by normalized path. -/
structure Store where
  texts : List (String × String) := []
  deriving DecidableEq, Inhabited, Repr

namespace Store

/-- The store without texts. -/
def empty : Store := {}

/-- Keeps a text. -/
def put (store : Store) (path text : String) : Store :=
  ⟨Sorted.put Prod.fst (Path.normalize path, text) store.texts⟩

/-- The store of some texts. -/
def ofList (texts : List (String × String)) : Store :=
  texts.foldl (fun store entry => store.put entry.1 entry.2) empty

/-- Keeps what a run writes. -/
def putOutputs (store : Store) (outputs : List Output) : Store :=
  outputs.foldl (fun store output => store.put output.path output.contents) store

/-- The text at a path. -/
def get? (store : Store) (path : String) : Option String :=
  (Keyed.find? Prod.fst (Path.normalize path) store.texts).map Prod.snd

/-- Reading from the store never fails. -/
def read (store : Store) : Source := fun path => .ok (store.get? path)

/-- A text is found under every spelling of its path; other paths find what they
found before. -/
theorem get?_put {store : Store} (h : Sorted.Increasing Prod.fst store.texts)
    (path text other : String) :
    (store.put path text).get? other
      = if Path.normalize other = Path.normalize path then some text else store.get? other := by
  rw [get?, put, Sorted.find?_put _ _ _ h]
  split
  · rfl
  · rfl

end Store

end Regeneration
