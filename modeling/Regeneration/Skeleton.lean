import Regeneration.File
import Regeneration.Json.Document
import Regeneration.Sorted

/-!
# What a generation hands over

A skeleton gives the record of every generated file by path, and perhaps a
guidance document. Records are checked while they are read; they become trees,
and the paths are looked at, only when the files are asked for.
-/

set_option autoImplicit false

namespace Regeneration

/-- The generated files as records, in the order of their paths as written. -/
structure Skeleton where
  records : List (String × Record) := []
  guidance : Option Json.Value := none

namespace Skeleton

/-- How many arrays and objects a record may open: all but the document and the
object with the files. -/
def recordDepth : Nat := Json.nestingLimit - 2

/-- How many arrays and objects the guidance document may open. -/
def guidanceDepth : Nat := Json.nestingLimit - 1

/-- The members found so far. -/
structure Members where
  files : Option (List (String × Record)) := none
  guidance : Option (Option Json.Value) := none

/-- Reads the files. -/
def filesReader (text : List Char) : Except Json.Fault (List (String × Record) × List Char) :=
  Json.table (Record.read recordDepth) text

/-- Reads the guidance document. -/
def guidanceReader (text : List Char) : Except Json.Fault (Option Json.Value × List Char) :=
  Json.optional (Json.value guidanceDepth) text

/-- The members that are known. -/
def known : String → Option (Members → Json.Reader Members)
  | "files" => some fun members text => do
    let (files, rest) ← Json.field "files" members.files filesReader text
    .ok ({ members with files }, rest)
  | "guidances" => some fun members text => do
    let (guidance, rest) ← Json.field "guidances" members.guidance guidanceReader text
    .ok ({ members with guidance }, rest)
  | _ => none

/-- The skeleton of what was read; the last record of a path is kept. -/
def build (files : List (String × Record)) (guidance : Option Json.Value) : Skeleton :=
  ⟨Sorted.ofList Prod.fst files, guidance.map Json.Value.canonical⟩

/-- Reads a skeleton that is written as an object. -/
def readMembers (text : List Char) : Except Json.Fault (Skeleton × List Char) := do
  let (members, rest) ← Json.fields known {} text
  let (files, rest) ← Json.required "files" members.files rest
  .ok (build files (members.guidance.getD none), rest)

/-- Reads a skeleton that is written as an array; the guidance may be left
out. -/
def readItems (text : List Char) : Except Json.Fault (Skeleton × List Char) := do
  match ← Json.nextElement true text with
  | .stop rest => .error ⟨.wrongLength 0, .here, rest⟩
  | .more rest =>
    let (files, rest) ← filesReader rest
    match ← Json.nextElement false rest with
    | .stop rest => .ok (build files none, rest)
    | .more rest =>
      let (guidance, rest) ← guidanceReader rest
      .ok (build files guidance, ← Json.endList rest)

/-- Reads the text of a skeleton; errors name its origin. -/
def ofText (origin text : String) : Except RunError Skeleton :=
  match Json.readAll (Json.document readMembers readItems) text with
  | .error error => .error (.malformed origin error)
  | .ok skeleton => .ok skeleton

/-- The file of a record under a path. A tree that cannot be built is told before
a path that may not name an output. -/
def fileOf (path : String) (record : Record) : Except RunError File :=
  match record.toSegment with
  | .error error => .error (.invalidTree path error)
  | .ok tree => File.make path tree

/-- The generated files, in the order of their paths as written. -/
def files (skeleton : Skeleton) : Except RunError (List File) :=
  skeleton.records.mapM fun entry => fileOf entry.1 entry.2

end Skeleton

end Regeneration
