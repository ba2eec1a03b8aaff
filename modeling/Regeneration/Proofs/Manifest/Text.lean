import Regeneration.Manifest
import Regeneration.Proofs.Json.Reading
import Regeneration.Proofs.Keyed.Sorted

/-!
# Texts of manifests

A manifest of normalized paths in order, such as every manifest that is built from a
list, is read back from its text.

Main statements: `ofList_eq`, `mem_ofList` and `ofText_text`.
-/

set_option autoImplicit false

namespace Regeneration

namespace Manifest

open Json (Value)

/-- The manifest of some paths lists their normalized spellings, in order. -/
theorem ofList_eq (paths : List String) :
    (ofList paths).paths = Sorted.ofList id (paths.map Path.normalize) := by
  rw [ofList, Sorted.ofList, List.foldl_map]
  suffices h : ∀ manifest : Manifest, (paths.foldl insert manifest).paths
      = paths.foldl (fun sorted path => Sorted.put id (Path.normalize path) sorted)
          manifest.paths from h empty
  induction paths with
  | nil => exact fun _ => rfl
  | cons path rest ih => exact fun manifest => ih _

theorem mem_ofList {paths : List String} {path : String} :
    path ∈ (ofList paths).paths ↔ path ∈ paths.map Path.normalize := by
  have h : path ∈ (Sorted.ofList id (paths.map Path.normalize)).map id
      ↔ path ∈ (paths.map Path.normalize).map id := Sorted.mem_keys_ofList
  rw [List.map_id, List.map_id] at h
  rw [ofList_eq, h]

/-- Normalized paths in order stay what they are. -/
theorem ofList_paths {manifest : Manifest} (ho : Sorted.Increasing id manifest.paths)
    (hn : ∀ path ∈ manifest.paths, Path.normalize path = path) :
    ofList manifest.paths = manifest := by
  have hsame : manifest.paths.map Path.normalize = manifest.paths :=
    (List.map_congr_left hn).trans (List.map_id _)
  have hpaths : (ofList manifest.paths).paths = manifest.paths := by
    rw [ofList_eq, hsame, Sorted.ofList_of_increasing ho]
  obtain ⟨paths⟩ := manifest
  exact congrArg Manifest.mk hpaths

/-- The reader of manifests finds the paths. -/
theorem reader_write (manifest : Manifest) :
    reader (manifest.toValue.write []) = .ok (manifest.paths, []) := by
  have hlist : (Value.array (manifest.paths.map .string)).write ['\x7d']
      = (Value.array (manifest.paths.map .string)).spell .compact 1 ['\x7d'] :=
    Json.write_eq_spell _ 1 _
  have hpaths := Json.texts_spell .compact 1 manifest.paths ['\x7d']
  have hname := Json.Quoted.read_encode "tracedFiles"
    (':' :: (Value.array (manifest.paths.map .string)).write ['\x7d'])
  rw [← hlist] at hpaths
  have hfields : Json.fields
      (fun name => if name = "tracedFiles" then
        some fun held => Json.field name held Json.texts else none) none
      (Json.Quoted.write "tracedFiles"
        (':' :: (Value.array (manifest.paths.map .string)).write ['\x7d']))
      = .ok (some manifest.paths, []) := by
    have hfirst : ∀ rest, Json.nextName true ('\x22' :: rest) = .ok (.more rest) := by
      intro rest
      exact Json.nextName_first rfl
    rw [Json.fields, Json.Quoted.write, List.length_cons, Json.fieldsFrom, hfirst]
    simp only [bind, Except.bind, hname, if_pos, Json.field, Json.colon_colon, hpaths]
    rw [Json.fieldsFrom, Json.nextName_close false rfl]
    rfl
  have hwrite : manifest.toValue.write [] = '\x7b' :: Json.Quoted.write "tracedFiles"
      (':' :: (Value.array (manifest.paths.map .string)).write ['\x7d']) := rfl
  rw [hwrite, reader, Json.document, Json.skipBlanks_of_not_blank _ rfl]
  simp only [if_pos, bind, Except.bind, hfields]
  rfl

/-- **A manifest is read back from its text.** -/
theorem ofText_text (manifest : Manifest) :
    ofText manifest.text = .ok (ofList manifest.paths) := by
  rw [ofText, text, Value.compact, Json.readAll, String.toList_ofList, reader_write]
  rfl

end Manifest

end Regeneration
