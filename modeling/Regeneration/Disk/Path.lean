/-!
# Paths on a disk

A path on a disk is kept as it was written: the pieces between its slashes, empty
ones included, and whether it starts at the root. So a path can be shown again
exactly, while following it passes over empty pieces.

Main statements: `text_ofText` (nothing of a path is lost) and
`length_pieces_parent?` (a parent is shorter).
-/

set_option autoImplicit false

namespace Regeneration

/-- A path as written. -/
structure DiskPath where
  /-- Whether it starts at the root. -/
  isAbsolute : Bool
  /-- The pieces between the slashes. -/
  pieces : List String
  deriving DecidableEq, Inhabited, Repr

namespace DiskPath

/-- Reads a path. -/
def ofText (text : String) : DiskPath :=
  match text.toList with
  | '/' :: rest => ⟨true, (rest.splitOn '/').map String.ofList⟩
  | chars => ⟨false, (chars.splitOn '/').map String.ofList⟩

/-- The path as written. -/
def text (path : DiskPath) : String :=
  let joined := ['/'].intercalate (path.pieces.map String.toList)
  String.ofList (if path.isAbsolute then '/' :: joined else joined)

/-- The names to follow. -/
def names (path : DiskPath) : List String := path.pieces.filter fun piece => piece != ""

/-- Whether the path is the empty text. -/
def isEmpty (path : DiskPath) : Bool := !path.isAbsolute && path.names.isEmpty

/-- Whether there is a null character in one of the names. No file has such a name. -/
def hasNull (path : DiskPath) : Bool := path.names.any fun name => name.toList.contains '\x00'

/-- Whether the path ends in a slash. -/
def endsInSlash (path : DiskPath) : Bool := path.pieces.getLast?.all (· == "")

/-- A path continued by another. An absolute one starts anew. -/
def join (base path : DiskPath) : DiskPath :=
  if path.isAbsolute then path
  else
    let kept := if base.pieces.getLast? = some "" then base.pieces.dropLast else base.pieces
    { base with pieces := kept ++ path.pieces }

/-- Pieces that lead nowhere. -/
def isIdle (piece : String) : Bool := piece == "" || piece == "."

/-- The pieces up to the last one that leads somewhere. A relative path that is
nothing but dots keeps the first of them. -/
def trim (isAbsolute : Bool) (pieces : List String) : List String :=
  let kept := (pieces.reverse.dropWhile isIdle).reverse
  if kept.isEmpty && !isAbsolute && pieces.head? == some "." then ["."] else kept

/-- The path without its last piece. -/
def parent? (path : DiskPath) : Option DiskPath :=
  match trim path.isAbsolute path.pieces with
  | [] => none
  | piece :: pieces =>
    some { path with pieces := trim path.isAbsolute (piece :: pieces).dropLast }

/-- A path is shown as it was written. -/
theorem text_ofText (text : String) : (ofText text).text = text := by
  rw [ofText]
  split
  · next rest h =>
      simp [DiskPath.text, Function.comp_def, ← h]
  · simp [DiskPath.text, Function.comp_def]

theorem length_trim (isAbsolute : Bool) (pieces : List String) :
    (trim isAbsolute pieces).length ≤ pieces.length := by
  rw [trim]
  split
  · next h =>
      cases pieces with
      | nil => simp at h
      | cons piece rest => simp
  · simpa using (List.dropWhile_sublist isIdle (l := pieces.reverse)).length_le

/-- A parent has fewer pieces. -/
theorem length_pieces_parent? {path parent : DiskPath} (h : path.parent? = some parent) :
    parent.pieces.length < path.pieces.length := by
  have hpath := length_trim path.isAbsolute path.pieces
  rw [parent?] at h
  split at h
  · cases h
  · next piece pieces htrim =>
      rw [htrim] at hpath
      cases h
      have := length_trim path.isAbsolute (piece :: pieces).dropLast
      simp only [List.length_dropLast, List.length_cons] at this hpath ⊢
      omega

end DiskPath

end Regeneration
