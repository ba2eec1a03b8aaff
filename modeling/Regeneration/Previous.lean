import Regeneration.Store

/-!
# The run before

The trees of the run before are loaded from its records when they are asked for,
and kept. What could not be loaded is not kept, so it is tried again.

Main statements: `oldTree_held` and `oldTree_fresh`, which say what asking for a
tree answers.
-/

set_option autoImplicit false

namespace Regeneration

/-- What is known of the run before. -/
structure Previous where
  layout : Layout := Layout.standard
  manifest : Manifest := Manifest.empty
  /-- What was loaded so far, by normalized path. -/
  trees : List (String × Option Segment) := []

namespace Previous

/-- The run before of a first run. -/
def empty (layout : Layout) : Previous := { layout }

instance : Inhabited Previous := ⟨empty Layout.standard⟩

/-- Reads a text and names the path if that fails. -/
def readText (read : Source) (path : String) : Except RunError (Option String) :=
  match read path with
  | .error fault => .error (.disk path fault)
  | .ok text => .ok text

/-- Looks at what a run left behind. Without a manifest there was none. -/
def ofSource (read : Source) (layout : Layout) : Except RunError Previous :=
  match readText read layout.manifestPath with
  | .error error => .error error
  | .ok none => .ok (empty layout)
  | .ok (some text) =>
    match Manifest.ofText text with
    | .error error => .error (.malformed layout.manifestPath error)
    | .ok manifest => .ok { layout, manifest }

/-- The tree that the record at a path describes. -/
def loadRecord (read : Source) (path : String) : Except RunError (Option Segment) :=
  match readText read path with
  | .error error => .error error
  | .ok none => .ok none
  | .ok (some text) =>
    match File.ofRecordText path text with
    | .error error => .error error
    | .ok file => .ok (some file.tree)

/-- What was loaded for a path, if anything was tried with success. -/
def held? (previous : Previous) (path : String) : Option (Option Segment) :=
  (previous.trees.find? fun entry => entry.1 == Path.normalize path).map Prod.snd

/-- The tree that was loaded for a path. -/
def cached (previous : Previous) (path : String) : Option Segment :=
  (previous.held? path).getD none

/-- Keeps what was loaded for a path. -/
def keep (previous : Previous) (path : String) (tree : Option Segment) : Previous :=
  { previous with trees := (Path.normalize path, tree) :: previous.trees }

/-- The tree a path had in the run before, and what is known thereafter. -/
def oldTree (read : Source) (previous : Previous) (path : String) :
    Except RunError (Option Segment × Previous) :=
  match previous.held? path with
  | some tree => .ok (tree, previous)
  | none =>
    match loadRecord read (previous.layout.recordPath path) with
    | .error error => .error error
    | .ok tree => .ok (tree, previous.keep path tree)

/-- What is held is answered, whatever the source has now. -/
theorem oldTree_held {previous : Previous} {path : String} {tree : Option Segment}
    (read : Source) (h : previous.held? path = some tree) :
    oldTree read previous path = .ok (tree, previous) := by
  rw [oldTree, h]

/-- What is not held is loaded and held from then on. -/
theorem oldTree_fresh {previous : Previous} {path : String} {tree : Option Segment}
    {read : Source} (h : previous.held? path = none)
    (hload : loadRecord read (previous.layout.recordPath path) = .ok tree) :
    oldTree read previous path = .ok (tree, previous.keep path tree) := by
  rw [oldTree, h, hload]

/-- A kept tree is held under every spelling of its path and changes no other. -/
theorem held?_keep (previous : Previous) (path other : String) (tree : Option Segment) :
    (previous.keep path tree).held? other
      = if Path.normalize other = Path.normalize path then some tree
        else previous.held? other := by
  by_cases h : Path.normalize other = Path.normalize path
  · simp [held?, keep, h]
  · simp [held?, keep, h, Ne.symm h]

end Previous

end Regeneration
