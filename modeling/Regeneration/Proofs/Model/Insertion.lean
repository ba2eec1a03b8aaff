import Regeneration.Proofs.Manifest.History
import Regeneration.Proofs.Model.Files

/-!
# Files put into a model

A model keeps files under keys, and the key of a file is the path that it has when it is put
in. What is looked up, listed and found stale goes by the keys, what is written by the paths
of the files themselves. Both agree: paths are normalized when files are made, so every key
is the path of the file under it, and a look-up that normalizes finds it in every spelling.

What a sequence of files comes to is then the last file of each path, in the order of the
paths. The manifest of these paths is read back as it is, and what is stale is told by it.

Main statement: `files_inserted`. A table with keys of their own holds what the model holds
(`FileTable.ofList_eq`), and a path finds the last file put in for it
(`File.find?_reverse_eq_some_iff`).
-/

set_option autoImplicit false

namespace Regeneration

/-! ## The last file of a path -/

/-- The last of some files with a path. -/
def File.LastOf (files : List File) (path : String) (file : File) : Prop :=
  ∃ front back, files = front ++ file :: back ∧ file.path = path ∧
    ∀ other ∈ back, other.path ≠ path

theorem File.find?_reverse_eq_some_iff {files : List File} {path : String} {file : File} :
    Keyed.find? File.path path files.reverse = some file ↔ LastOf files path file := by
  rw [Keyed.find?, List.find?_eq_some_iff_append, beq_iff_eq]
  constructor
  · rintro ⟨hpath, later, earlier, hsplit, hlater⟩
    refine ⟨earlier.reverse, later.reverse, ?_, hpath, ?_⟩
    · rw [← List.reverse_reverse files, hsplit]
      simp
    · intro other hm
      simpa using hlater other (List.mem_reverse.1 hm)
  · rintro ⟨front, back, rfl, hpath, hback⟩
    refine ⟨hpath, back.reverse, front.reverse, by simp, ?_⟩
    intro other hm
    simpa using hback other (List.mem_reverse.1 hm)

/-! ## Files under keys -/

/-- Files under the keys they were put in with, in the order of the keys. -/
abbrev FileTable := List (String × File)

namespace FileTable

/-- Puts a file under its path, instead of what is there. -/
def insert (table : FileTable) (file : File) : FileTable :=
  Sorted.put Prod.fst (file.path, file) table

/-- The table of files put in one after another. -/
def ofList (files : List File) : FileTable := files.foldl insert []

/-- The keys in order. -/
def keys (table : FileTable) : List String := table.map Prod.fst

/-- The file under the normalized spelling of a path. -/
def get? (table : FileTable) (path : String) : Option File :=
  (Keyed.find? Prod.fst (Path.normalize path) table).map Prod.snd

/-- The manifest of the keys. -/
def manifest (table : FileTable) : Manifest := .ofList table.keys

/-- The recorded paths that are no keys. -/
def stalePaths (table : FileTable) (recorded : Manifest) : List String :=
  recorded.paths.filter fun path => !table.keys.contains path

/-- What has to be written: the text and the record of every file under the file's own path,
then the manifest. -/
def outputs (table : FileTable) (layout : Layout) (pretty : Bool) : List Output :=
  table.flatMap (fun entry =>
      [⟨entry.2.path, entry.2.content⟩,
        ⟨layout.recordPath entry.2.path, entry.2.recordText pretty⟩])
    ++ [⟨layout.manifestPath, table.manifest.text⟩]

/-- Files under their paths. -/
def keyed (files : List File) : FileTable := files.map fun file => (file.path, file)

theorem insert_keyed (files : List File) (file : File) :
    insert (keyed files) file = keyed (Sorted.put File.path file files) := by
  induction files with
  | nil => rfl
  | cons head rest ih =>
      have hcons : keyed (head :: rest) = (head.path, head) :: keyed rest := rfl
      rw [insert] at ih
      rw [insert, hcons, Sorted.put, Sorted.put]
      dsimp only
      split
      · rfl
      · split
        · rfl
        · rw [ih]
          rfl

/-- **Every file lies under its path**, and the files are those of the model. -/
theorem ofList_eq (files : List File) : ofList files = keyed (Model.ofList files).files := by
  rw [Model.files_ofList]
  induction files using List.reverseRecOn with
  | nil => rfl
  | append_singleton files file ih =>
      rw [Sorted.ofList_append_singleton, ← insert_keyed, ← ih, ofList, List.foldl_append]
      rfl

/-- A table in which look-ups, lists and outputs are those of a model. -/
structure Represents (table : FileTable) (model : Model) : Prop where
  files : table.map Prod.snd = model.files
  keys : table.keys = model.paths
  get? : ∀ path, table.get? path = model.get? path
  manifest : table.manifest = model.manifest
  stalePaths : ∀ recorded, table.stalePaths recorded = model.stalePaths recorded
  outputs : ∀ layout pretty,
    table.outputs layout pretty ++ model.guidanceOutputs layout = model.outputs layout pretty

theorem represents_keyed (model : Model) : (keyed model.files).Represents model := by
  have hkeys : (keyed model.files).keys = model.paths := by
    rw [FileTable.keys, keyed, List.map_map]
    rfl
  refine ⟨?_, hkeys, fun path => ?_, ?_, fun recorded => ?_, fun layout pretty => ?_⟩
  · rw [keyed, List.map_map]
    exact List.map_id _
  · have hpath : ∀ file : File, Prod.fst (file.path, file) = file.path := fun _ => rfl
    rw [FileTable.get?, keyed, Keyed.find?_map hpath, Option.map_map]
    exact Option.map_id'
  · rw [FileTable.manifest, hkeys]
    rfl
  · rw [FileTable.stalePaths, hkeys]
    rfl
  · rw [FileTable.outputs, FileTable.manifest, hkeys, keyed, List.flatMap_map, Model.outputs]
    rfl

end FileTable

namespace Model

/-! ## What a sequence of files comes to -/

section Inserted

variable {files : List File}

/-- Files put in under one path each come to the same in any order. -/
theorem ofList_perm {others : List File} (hp : others.Perm files)
    (hd : (files.map File.path).Nodup) : ofList others = ofList files := by
  have hfiles : (ofList others).files = (ofList files).files := by
    apply Sorted.eq_of_find?_eq (increasing_ofList others) (increasing_ofList files)
    intro path
    have hreverse : others.reverse.Perm files.reverse :=
      (List.reverse_perm others).trans (hp.trans (List.reverse_perm files).symm)
    have hnodup : (others.reverse.map File.path).Nodup :=
      ((hreverse.trans (List.reverse_perm files)).map File.path).nodup_iff.2 hd
    rw [find?_ofList, find?_ofList, Keyed.find?_perm hreverse hnodup]
  have hmodel : ∀ files : List File, ofList files = ⟨(ofList files).files, none⟩ := by
    intro files
    rw [← guidance_ofList files]
  rw [hmodel others, hfiles, ← hmodel]

/-- A file is kept exactly if it is the last of its path. -/
theorem mem_files_ofList {file : File} :
    file ∈ (ofList files).files ↔ File.LastOf files file.path file := by
  rw [← File.find?_reverse_eq_some_iff, ← find?_ofList]
  exact ⟨Keyed.find?_of_mem (increasing_ofList files).nodup_keys, Keyed.mem_of_find?⟩

/-- Accepted files have normalized paths. -/
theorem normalize_of_accepted
    (accepted : ∀ file ∈ files, ∃ path tree, File.make path tree = .ok file)
    {path : String} (hp : path ∈ (ofList files).paths) : Path.normalize path = path := by
  obtain ⟨file, hm, rfl⟩ := List.mem_map.1 (mem_paths_ofList.1 hp)
  obtain ⟨_, _, hmake⟩ := accepted file hm
  exact File.normalize_of_make hmake

end Inserted

/-- **What files put into a model come to.** For all accepted files, put in one after another,
and every layout: every key is the path of the file under it and normalized. A path finds, in
every spelling, the last file put in for it. What is written are the text and the record of
the last file of each path, in the order of the bytes of the paths, and then one manifest,
which is read back as just these paths. Of every manifest that reads, the paths that are
stale are those without a file, in order; of the model's own manifest there are none. Files
of distinct paths may be put in in any order. -/
theorem files_inserted {files : List File}
    (accepted : ∀ file ∈ files, ∃ path tree, File.make path tree = .ok file) (layout : Layout)
    (pretty : Bool) :
    (FileTable.ofList files).Represents (ofList files) ∧
    (∀ entry ∈ FileTable.ofList files,
      entry.1 = entry.2.path ∧ Path.normalize entry.1 = entry.1) ∧
    (∀ path file, (ofList files).get? path = some file ↔
      File.LastOf files (Path.normalize path) file) ∧
    (∃ kept : List File,
      ((kept.map File.path).Pairwise fun path other => Text.bytes path < Text.bytes other) ∧
      (∀ file, file ∈ kept ↔ File.LastOf files file.path file) ∧
      (ofList files).outputs layout pretty
        = kept.flatMap (fun file => [⟨file.path, file.content⟩,
            ⟨layout.recordPath file.path, file.recordText pretty⟩])
          ++ [⟨layout.manifestPath, (ofList files).manifest.text⟩] ∧
      Manifest.ofText (ofList files).manifest.text = .ok ⟨kept.map File.path⟩) ∧
    (∀ text recorded, Manifest.ofText text = .ok recorded →
      ((ofList files).stalePaths recorded).Pairwise
          (fun path other => Text.bytes path < Text.bytes other) ∧
        ∀ path, path ∈ (ofList files).stalePaths recorded ↔
          path ∈ recorded.paths ∧ path ∉ files.map File.path) ∧
    (∀ own, Manifest.ofText (ofList files).manifest.text = .ok own →
      (ofList files).stalePaths own = []) ∧
    ∀ others : List File, others.Perm files → (files.map File.path).Nodup →
      ofList others = ofList files := by
  have hincreasing := increasing_ofList files
  have hpaths : (ofList files).manifest.paths = (ofList files).paths :=
    paths_manifest hincreasing fun path hp => normalize_of_accepted accepted hp
  have hown : Manifest.ofText (ofList files).manifest.text = .ok (ofList files).manifest :=
    (Manifest.orderly_ofList _).ofText_text
  refine ⟨?_, ?_, ?_, ⟨(ofList files).files, ?_, fun _ => mem_files_ofList, ?_, ?_⟩, ?_, ?_,
    fun others => ofList_perm⟩
  · rw [FileTable.ofList_eq]
    exact FileTable.represents_keyed _
  · intro entry hm
    rw [FileTable.ofList_eq] at hm
    obtain ⟨file, hfile, rfl⟩ := List.mem_map.1 hm
    exact ⟨rfl, normalize_of_accepted accepted (List.mem_map_of_mem hfile)⟩
  · intro path file
    rw [get?, find?_ofList, File.find?_reverse_eq_some_iff]
  · exact List.pairwise_map.2 (hincreasing.imp fun hlt => Text.lt_iff_bytes_lt.1 hlt)
  · rw [outputs, guidanceOutputs, guidance_ofList, List.append_nil]
    rfl
  · rw [hown, ← paths, ← hpaths]
  · intro text recorded hrecorded
    refine ⟨(Manifest.orderly_ofText hrecorded).increasing_bytes.filter _, fun path => ?_⟩
    rw [mem_stalePaths, mem_paths_ofList]
  · intro own ho
    rw [hown] at ho
    cases ho
    rw [List.eq_nil_iff_forall_not_mem]
    intro path hp
    obtain ⟨hlisted, hgone⟩ := mem_stalePaths.1 hp
    exact hgone (hpaths ▸ hlisted)

/-! ## A path put in twice -/

namespace Twice

/-- Two files of one path in different spellings, and one between them. -/
def inserted : List File :=
  [⟨"web/index.html", .literal "a" "old"⟩, ⟨"a.txt", .literal "a" "A"⟩,
    ⟨"web/index.html", .literal "a" "new"⟩]

/-- A manifest that lists one of the paths and another one. -/
def manifestText : String := "\x7b\"tracedFiles\":[\"gone.txt\",\".\\\\a.txt\"]\x7d"

end Twice

open Twice in
/-- The later file of the repeated path is found and written, and the path that is listed in
another spelling is not stale. -/
theorem files_inserted_twice :
    (∀ file ∈ inserted, ∃ path tree, File.make path tree = .ok file) ∧
    (ofList inserted).get? ".\\web\\index.html"
      = some ⟨"web/index.html", .literal "a" "new"⟩ ∧
    Manifest.ofText manifestText = .ok ⟨["a.txt", "gone.txt"]⟩ ∧
    "gone.txt" ∈ (ofList inserted).stalePaths ⟨["a.txt", "gone.txt"]⟩ ∧
    "a.txt" ∉ (ofList inserted).stalePaths ⟨["a.txt", "gone.txt"]⟩ := by
  have accepted : ∀ file ∈ inserted, ∃ path tree, File.make path tree = .ok file := by
    intro file hm
    simp only [inserted, List.mem_cons, List.not_mem_nil, or_false] at hm
    rcases hm with rfl | rfl | rfl
    · exact ⟨"web\\index.html", _, rfl⟩
    · exact ⟨"./a.txt", _, rfl⟩
    · exact ⟨"/web/index.html", _, rfl⟩
  obtain ⟨-, -, hfound, -, hstale, -⟩ := files_inserted accepted Layout.standard false
  have hmanifest : Manifest.ofText manifestText = .ok ⟨["a.txt", "gone.txt"]⟩ := by
    decide +kernel
  have hmem := (hstale _ _ hmanifest).2
  refine ⟨accepted, (hfound _ _).2 ⟨inserted.take 2, [], rfl, rfl, List.forall_mem_nil _⟩,
    hmanifest, (hmem _).2 (by decide), fun hm => ?_⟩
  exact absurd ((hmem _).1 hm) (by decide)

end Model

end Regeneration
