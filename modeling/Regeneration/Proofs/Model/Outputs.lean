import Regeneration.Proofs.Model.Files
import Regeneration.Proofs.Path.Location
import Regeneration.Proofs.Store.Outputs

/-!
# Which outputs of a model share a path

With the standard layout the records, the manifest and the guidance document of a model
have paths of their own. The paths of its files are free: nothing keeps a file from
lying where the record of another belongs. That is the only way in which two outputs
can share a path.

Main statement: `nodup_outputs_iff`.
-/

set_option autoImplicit false

namespace Regeneration

/-! ## The standard layout -/

namespace Layout

theorem toList_recordPath (path : String) :
    (standard.recordPath path).toList
      = "traces/".toList ++ (Path.normalize path).toList ++ ".traces".toList := by
  rw [recordPath, String.toList_append, String.toList_append, String.toList_append]
  rfl

theorem normalize_recordPath (path : String) :
    Path.normalize (standard.recordPath path) = standard.recordPath path := by
  have hlist := toList_recordPath path
  apply Path.normalize_of_plain hlist
  · decide
  · decide
  · have h := Path.backslash_not_mem_normalize path
    rw [hlist]
    simp [h]

theorem recordPath_injective {path other : String}
    (h : standard.recordPath path = standard.recordPath other) :
    Path.normalize path = Path.normalize other := by
  have hlist := congrArg String.toList h
  rw [toList_recordPath, toList_recordPath] at hlist
  exact String.toList_injective
    (List.append_cancel_left (List.append_cancel_right hlist))

/-- A record ends in the suffix, so it is neither of the documents. -/
theorem recordPath_ne_document (path : String) :
    standard.recordPath path ≠ standard.manifestPath ∧
      standard.recordPath path ≠ standard.guidancePath := by
  have hlast : (standard.recordPath path).toList.getLast? = some 's' := by
    rw [toList_recordPath, List.getLast?_append]
    rfl
  constructor
  · intro he
    rw [he] at hlast
    exact absurd hlast (by decide)
  · intro he
    rw [he] at hlast
    exact absurd hlast (by decide)

end Layout

namespace Model

/-! ## Models of accepted files -/

/-- Models as they are built: files with accepted paths are put in, and a guidance
document may be attached. -/
inductive Built : Model → Prop where
  | empty : Built Model.empty
  | insert {model : Model} {path : String} {tree : Segment} {file : File} (built : Built model)
      (accepted : File.make path tree = .ok file) : Built (model.insert file)
  | withGuidance {model : Model} (built : Built model) (guidance : Json.Value) :
      Built (model.withGuidance guidance)

theorem Built.increasing {model : Model} (h : model.Built) :
    Sorted.Increasing File.path model.files := by
  induction h with
  | empty => exact List.Pairwise.nil
  | insert _ _ ih => exact Sorted.increasing_put ih
  | withGuidance _ _ ih => exact ih

theorem Built.normalized {model : Model} (h : model.Built) :
    ∀ path ∈ model.paths, Path.normalize path = path := by
  induction h with
  | empty => exact fun _ hm => nomatch hm
  | insert _ accepted ih =>
      intro path hm
      rcases Sorted.mem_keys_put.1 hm with rfl | hm
      · exact File.normalize_of_make accepted
      · exact ih path hm
  | withGuidance _ _ ih => exact ih

/-- No file of the model lies where the layout puts a record of the model, its manifest
or its guidance document. -/
structure Apart (model : Model) (layout : Layout) : Prop where
  records : ∀ path ∈ model.paths, ∀ other ∈ model.paths, path ≠ layout.recordPath other
  manifest : layout.manifestPath ∉ model.paths
  guidance : model.guidance.isSome → layout.guidancePath ∉ model.paths

/-! ## The paths of the outputs -/

/-- The paths of what is kept beside the files: their records, the manifest and the
guidance document. -/
def besidePaths (model : Model) (layout : Layout) : List String :=
  model.paths.map layout.recordPath ++ layout.manifestPath ::
    (model.guidanceOutputs layout).map Output.path

/-- The paths of all outputs, up to their order. -/
theorem paths_outputs_perm (model : Model) (layout : Layout) (pretty : Bool) :
    ((model.outputs layout pretty).map Output.path).Perm
      (model.paths ++ model.besidePaths layout) := by
  have hfiles : ((model.files.flatMap (fileOutputs layout pretty)).map Output.path).Perm
      (model.paths ++ model.paths.map layout.recordPath) := by
    have h := List.flatMap_append_perm model.files (fun file => [file.path])
      fun file => [layout.recordPath file.path]
    rw [List.map_flatMap]
    refine h.symm.trans (.of_eq ?_)
    rw [← List.map_eq_flatMap, ← List.map_eq_flatMap, paths, List.map_map]
    rfl
  rw [outputs, List.map_append, List.map_append, besidePaths, ← List.append_assoc]
  refine (List.Perm.append_right _ (List.Perm.append_right _ hfiles)).trans (.of_eq ?_)
  rw [List.append_assoc]
  rfl

theorem mem_besidePaths {model : Model} {layout : Layout} {path : String} :
    path ∈ model.besidePaths layout ↔
      (∃ other ∈ model.paths, path = layout.recordPath other) ∨ path = layout.manifestPath ∨
        (model.guidance.isSome ∧ path = layout.guidancePath) := by
  cases hg : model.guidance with
  | none => simp [besidePaths, guidanceOutputs, hg, eq_comm]
  | some guidance => simp [besidePaths, guidanceOutputs, hg, eq_comm]

/-- What is kept beside the files has paths of its own. -/
theorem nodup_besidePaths {model : Model} (h : model.Built) :
    (model.besidePaths Layout.standard).Nodup := by
  have hrecords : (model.paths.map Layout.standard.recordPath).Nodup := by
    refine List.Nodup.map_on ?_ h.increasing.nodup_keys
    intro path hp other ho he
    rw [← h.normalized path hp, ← h.normalized other ho]
    exact Layout.recordPath_injective he
  have hdocuments : (Layout.standard.manifestPath ::
      (model.guidanceOutputs Layout.standard).map Output.path).Nodup := by
    rw [guidanceOutputs]
    cases model.guidance with
    | none => exact List.nodup_singleton _
    | some guidance =>
        simp only [List.map_cons, List.map_nil]
        decide
  refine List.Nodup.append hrecords hdocuments ?_
  intro path hrecord hdocument
  obtain ⟨other, -, rfl⟩ := List.mem_map.1 hrecord
  obtain ⟨hmanifest, hguidance⟩ := Layout.recordPath_ne_document other
  rcases List.mem_cons.1 hdocument with he | hm
  · exact hmanifest he
  · rw [guidanceOutputs] at hm
    split at hm
    · exact hguidance (List.mem_singleton.1 hm)
    · cases hm

/-- All outputs have normalized paths. -/
theorem normalized_outputs {model : Model} (h : model.Built) (pretty : Bool) :
    (model.outputs Layout.standard pretty).map Output.normalized
      = (model.outputs Layout.standard pretty).map Output.path := by
  apply List.map_congr_left
  intro output hm
  have hpath := (paths_outputs_perm model Layout.standard pretty).subset (List.mem_map_of_mem hm)
  rw [Output.normalized]
  rcases List.mem_append.1 hpath with hfile | hbeside
  · exact h.normalized _ hfile
  · rcases mem_besidePaths.1 hbeside with ⟨other, -, he⟩ | he | ⟨-, he⟩
    · rw [he, Layout.normalize_recordPath]
    · rw [he]
      decide
    · rw [he]
      decide

theorem disjoint_besidePaths_iff {model : Model} {layout : Layout} :
    model.paths.Disjoint (model.besidePaths layout) ↔ model.Apart layout := by
  constructor
  · intro h
    refine ⟨fun path hp other ho he => ?_, fun hm => ?_, fun hg hm => ?_⟩
    · exact h hp (mem_besidePaths.2 (.inl ⟨other, ho, he⟩))
    · exact h hm (mem_besidePaths.2 (.inr (.inl rfl)))
    · exact h hm (mem_besidePaths.2 (.inr (.inr ⟨hg, rfl⟩)))
  · intro h path hp hbeside
    rcases mem_besidePaths.1 hbeside with ⟨other, ho, he⟩ | rfl | ⟨hg, rfl⟩
    · exact h.records path hp other ho he
    · exact h.manifest hp
    · exact h.guidance hg hp

/-- **When outputs share a path.** The normalized paths of what a model has to write
with the standard layout are pairwise distinct exactly if no file of the model lies
where a record of the model, its manifest or its guidance document belongs. Then every
output is found at its path after all were put into a store in order. -/
theorem nodup_outputs_iff {model : Model} (h : model.Built) (pretty : Bool) :
    (((model.outputs Layout.standard pretty).map Output.normalized).Nodup
      ↔ model.Apart Layout.standard) ∧
    (model.Apart Layout.standard → ∀ output ∈ model.outputs Layout.standard pretty,
      (Store.empty.putOutputs (model.outputs Layout.standard pretty)).get? output.path
        = some output.contents) := by
  have hiff : ((model.outputs Layout.standard pretty).map Output.normalized).Nodup
      ↔ model.Apart Layout.standard := by
    rw [normalized_outputs h, (paths_outputs_perm model Layout.standard pretty).nodup_iff,
      List.nodup_append', disjoint_besidePaths_iff]
    exact ⟨fun hn => hn.2.2, fun ha => ⟨h.increasing.nodup_keys, nodup_besidePaths h, ha⟩⟩
  exact ⟨hiff, fun ha output hm => Store.get?_of_distinct (hiff.2 ha) hm⟩

/-! ## Files that do and that do not keep apart -/

namespace Sample

def letter (path content : String) : File := ⟨path, .literal "a" content⟩

/-- A file, and another one where the record of the first belongs. -/
def overlapping : Model := .ofList [letter "a.txt" "A", letter "traces/a.txt.traces" "T"]

/-- Files that only look like records, with a guidance document. -/
def apart : Model :=
  (Model.ofList [letter "a.txt" "A", letter "traces/a.txt" "T"]).withGuidance (.string "keep")

theorem built_overlapping : overlapping.Built := by
  have hfirst : File.make "a.txt" (.literal "a" "A") = .ok (letter "a.txt" "A") := rfl
  have hsecond : File.make "traces/a.txt.traces" (.literal "a" "T")
      = .ok (letter "traces/a.txt.traces" "T") := rfl
  exact .insert (.insert .empty hfirst) hsecond

theorem built_apart : apart.Built := by
  have hfirst : File.make "a.txt" (.literal "a" "A") = .ok (letter "a.txt" "A") := rfl
  have hsecond : File.make "traces/a.txt" (.literal "a" "T") = .ok (letter "traces/a.txt" "T") :=
    rfl
  exact .withGuidance (.insert (.insert .empty hfirst) hsecond) _

end Sample

/-- Outputs of files that are apart are all found, those of a file below the directory of
the records among them. -/
theorem nodup_outputs_apart :
    Sample.apart.Built ∧
    ((Sample.apart.outputs Layout.standard false).map Output.normalized).Nodup ∧
    (Store.empty.putOutputs (Sample.apart.outputs Layout.standard false)).get?
      "traces/traces/a.txt.traces"
        = some "\x7b\"type\":\"literal\",\"id\":\"a\",\"content\":\"T\"\x7d" := by
  have hbuilt := Sample.built_apart
  obtain ⟨hiff, hfound⟩ := nodup_outputs_iff hbuilt false
  have hnodup : ((Sample.apart.outputs Layout.standard false).map Output.normalized).Nodup := by
    decide
  refine ⟨hbuilt, hnodup, ?_⟩
  exact hfound (hiff.1 hnodup) ⟨"traces/traces/a.txt.traces",
    "\x7b\"type\":\"literal\",\"id\":\"a\",\"content\":\"T\"\x7d"⟩ (by decide)

/-- **Outputs can share a path.** The text of the second file overwrites the record of the
first, which is then not found at its path. -/
theorem outputs_overlap :
    Sample.overlapping.Built ∧
    ¬ ((Sample.overlapping.outputs Layout.standard false).map Output.normalized).Nodup ∧
    ∃ output ∈ Sample.overlapping.outputs Layout.standard false,
      (Store.empty.putOutputs (Sample.overlapping.outputs Layout.standard false)).get? output.path
        ≠ some output.contents := by
  refine ⟨Sample.built_overlapping, by decide, ⟨"traces/a.txt.traces",
    "\x7b\"type\":\"literal\",\"id\":\"a\",\"content\":\"A\"\x7d"⟩, by decide, by decide⟩

end Model

end Regeneration
