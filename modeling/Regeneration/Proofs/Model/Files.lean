import Regeneration.Model
import Regeneration.Proofs.Manifest.Text
import Regeneration.Proofs.Record.Tree

/-!
# What a model shows

A model is built by putting files in, so the last file of a path is the one that is
kept. What it has to write shows of a file its path and its record and nothing else:
models of files with the same paths and records write the same.

Main statements: `find?_ofList`, `mem_paths_ofList` and `outputs_of_views`.
-/

set_option autoImplicit false

namespace Regeneration

/-- What is written of a file: its path and its record. -/
def File.view (file : File) : String × Record := (file.path, file.record)

theorem File.normalize_of_make {path : String} {tree : Segment} {file : File}
    (h : File.make path tree = .ok file) : Path.normalize file.path = file.path := by
  obtain ⟨hchecked, -⟩ := File.make_eq_ok_iff.1 h
  rw [(Path.checked?_eq_some_iff.1 hchecked).1, Path.normalize_normalize]

namespace Model

variable {files : List File}

theorem files_ofList (files : List File) :
    (ofList files).files = Sorted.ofList File.path files := by
  rw [ofList, Sorted.ofList]
  suffices h : ∀ model : Model, (files.foldl insert model).files
      = files.foldl (fun sorted file => Sorted.put File.path file sorted) model.files from h empty
  induction files with
  | nil => exact fun _ => rfl
  | cons file rest ih => exact fun model => ih _

theorem guidance_ofList (files : List File) : (ofList files).guidance = none := by
  rw [ofList]
  suffices h : ∀ model : Model, (files.foldl insert model).guidance = model.guidance from h empty
  induction files with
  | nil => exact fun _ => rfl
  | cons file rest ih => exact fun model => ih _

/-- **The last file of a path is kept.** -/
theorem find?_ofList (files : List File) (path : String) :
    Keyed.find? File.path path (ofList files).files = Keyed.find? File.path path files.reverse := by
  rw [files_ofList, Sorted.find?_ofList]

theorem mem_paths_ofList {path : String} :
    path ∈ (ofList files).paths ↔ path ∈ files.map File.path := by
  rw [paths, files_ofList, Sorted.mem_keys_ofList]

theorem mem_of_mem_ofList {file : File} (h : file ∈ (ofList files).files) : file ∈ files := by
  rw [files_ofList] at h
  exact Sorted.mem_of_mem_ofList h

/-- The paths of a model are in order, so its manifest lists them as they are. -/
theorem paths_manifest {model : Model} (h : Sorted.Increasing File.path model.files)
    (hn : ∀ path ∈ model.paths, Path.normalize path = path) :
    model.manifest.paths = model.paths := by
  have ho : Sorted.Increasing id model.paths := List.pairwise_map.2 h
  have hsame : Manifest.ofList model.paths = ⟨model.paths⟩ := Manifest.ofList_paths ho hn
  exact congrArg Manifest.paths hsame

/-! ## What is written -/

theorem manifest_mem_outputs (model : Model) (layout : Layout) (pretty : Bool) :
    ⟨layout.manifestPath, model.manifest.text⟩ ∈ model.outputs layout pretty := by
  simp [outputs]

/-- What is written of a file is written of the model. -/
theorem mem_outputs_of_file {model : Model} {layout : Layout} {pretty : Bool} {file : File}
    {output : Output} (h : file ∈ model.files) (ho : output ∈ fileOutputs layout pretty file) :
    output ∈ model.outputs layout pretty := by
  have hfile : output ∈ model.files.flatMap (fileOutputs layout pretty) :=
    List.mem_flatMap.2 ⟨file, h, ho⟩
  simp [outputs, hfile]

theorem text_mem_outputs {model : Model} (layout : Layout) (pretty : Bool) {file : File}
    (h : file ∈ model.files) : ⟨file.path, file.content⟩ ∈ model.outputs layout pretty :=
  mem_outputs_of_file h (by simp [fileOutputs])

theorem record_mem_outputs {model : Model} (layout : Layout) (pretty : Bool) {file : File}
    (h : file ∈ model.files) :
    ⟨layout.recordPath file.path, file.recordText pretty⟩ ∈ model.outputs layout pretty :=
  mem_outputs_of_file h (by simp [fileOutputs])

/-! ## Equal views -/

/-- What is written of a view. -/
def viewOutputs (layout : Layout) (pretty : Bool) (view : String × Record) : List Output :=
  [⟨view.1, view.2.leafText⟩, ⟨layout.recordPath view.1, view.2.text pretty⟩]

theorem fileOutputs_eq (layout : Layout) (pretty : Bool) :
    fileOutputs layout pretty = fun file => viewOutputs layout pretty file.view := by
  funext file
  rw [fileOutputs, viewOutputs, File.view, File.record, Record.leafText_ofSegment]
  rfl

/-- Models with equal views and equal guidance texts write the same. -/
theorem outputs_of_texts {model other : Model}
    (hviews : model.files.map File.view = other.files.map File.view)
    (hguidance : model.guidance.map Json.Value.compact = other.guidance.map Json.Value.compact)
    (layout : Layout) (pretty : Bool) :
    model.outputs layout pretty = other.outputs layout pretty := by
  have hpaths : model.paths = other.paths := by
    have h := congrArg (List.map Prod.fst) hviews
    rw [List.map_map, List.map_map] at h
    exact h
  have hfiles : model.files.flatMap (fileOutputs layout pretty)
      = other.files.flatMap (fileOutputs layout pretty) := by
    have h := congrArg (List.flatMap (viewOutputs layout pretty)) hviews
    rw [List.flatMap_map, List.flatMap_map] at h
    rw [fileOutputs_eq]
    exact h
  have htexts : ∀ model : Model, model.guidanceOutputs layout
      = ((model.guidance.map Json.Value.compact).map fun text =>
          (⟨layout.guidancePath, text⟩ : Output)).toList := by
    intro model
    rw [guidanceOutputs]
    cases model.guidance <;> rfl
  rw [outputs, outputs, hfiles, manifest, manifest, hpaths, htexts, htexts, hguidance]

/-- **Models with equal views write the same.** -/
theorem outputs_of_views {model other : Model}
    (hviews : model.files.map File.view = other.files.map File.view)
    (hguidance : model.guidance = other.guidance) (layout : Layout) (pretty : Bool) :
    model.outputs layout pretty = other.outputs layout pretty :=
  outputs_of_texts hviews (by rw [hguidance]) layout pretty

/-- The files of two models show the same if every path finds the same view. -/
theorem views_eq {files others : List File}
    (h : ∀ path, (Keyed.find? File.path path files.reverse).map File.view
      = (Keyed.find? File.path path others.reverse).map File.view) :
    (ofList files).files.map File.view = (ofList others).files.map File.view := by
  have hview : ∀ file : File, file.view.1 = file.path := fun _ => rfl
  have hincreasing : ∀ files : List File,
      Sorted.Increasing Prod.fst ((ofList files).files.map File.view) := by
    intro files
    exact List.pairwise_map.2 (increasing_ofList files)
  apply Sorted.eq_of_find?_eq (hincreasing files) (hincreasing others)
  intro path
  rw [Keyed.find?_map hview, Keyed.find?_map hview, find?_ofList, find?_ofList, h path]

end Model

end Regeneration
