import Regeneration.Proofs.Manifest.Text
import Regeneration.Proofs.Outcome
import Regeneration.Proofs.Text.Bytes

/-!
# Manifests through any history

Paths are recorded in a manifest one by one, and the manifest is replaced by one of some
paths or by one that is read from a text. After any such steps its paths are normalized and
in the order of their bytes, and it lists what was recorded since it was last replaced. This
is enough for it to be read back from its text as it is.

Recording a path looks for it among the paths in order and stops at the first that is not
before it. Because they are in order it is then known whether the path was missing.

Main statement: `history_kept`. One step keeps `Orderly` (`Orderly.after`) and lists what
`mem_after` says; for runs these are `orderly_run` and `mem_run`.
-/

set_option autoImplicit false

namespace Regeneration.Manifest

open Outcome

/-! ## Recording a path -/

/-- Puts a path among paths in order, unless it is there, and tells whether it was missing. -/
def putMissing (path : String) : List String → Bool × List String
  | [] => (true, [path])
  | head :: rest =>
    if path = head then (false, head :: rest)
    else if path < head then (true, path :: head :: rest)
    else ((putMissing path rest).1, head :: (putMissing path rest).2)

/-- Records a path and tells whether it was not recorded before. -/
def record (manifest : Manifest) (path : String) : Bool × Manifest :=
  ((putMissing (Path.normalize path) manifest.paths).1,
    ⟨(putMissing (Path.normalize path) manifest.paths).2⟩)

/-- Among paths in order the search tells whether the path is one of them. -/
theorem putMissing_eq {path : String} {paths : List String} (h : Sorted.Increasing id paths) :
    putMissing path paths = (!paths.contains path, Sorted.put id path paths) := by
  induction paths with
  | nil => rfl
  | cons head rest ih =>
      obtain ⟨hhead, hrest⟩ := List.pairwise_cons.1 h
      rw [putMissing, Sorted.put, List.contains_cons]
      simp only [id_eq] at hhead ⊢
      split
      · next he => simp [he]
      · next hne =>
          rw [beq_eq_false_iff_ne.2 hne, Bool.false_or]
          split
          · next hlt =>
              -- all that follows is greater still
              have hmissing : path ∉ rest := fun hm =>
                String.lt_irrefl path (String.lt_trans hlt (hhead path hm))
              simp [hmissing]
          · rw [ih hrest]

/-! ## Orderly manifests -/

/-- Manifests of normalized paths in order, each once. -/
structure Orderly (manifest : Manifest) : Prop where
  increasing : Sorted.Increasing id manifest.paths
  normalized : ∀ path ∈ manifest.paths, Path.normalize path = path

theorem orderly_ofList (paths : List String) : (ofList paths).Orderly where
  increasing := increasing_ofList paths
  normalized := by
    intro path hm
    obtain ⟨listed, -, rfl⟩ := List.mem_map.1 (mem_ofList.1 hm)
    exact Path.normalize_normalize listed

theorem orderly_ofText {text : String} {manifest : Manifest} (h : ofText text = .ok manifest) :
    manifest.Orderly := by
  obtain ⟨paths, -, h⟩ := bind_eq_ok.1 h
  cases h
  exact orderly_ofList paths

namespace Orderly

variable {manifest : Manifest} (h : manifest.Orderly)

include h

theorem insert (path : String) : (manifest.insert path).Orderly where
  increasing := Sorted.increasing_put h.increasing
  normalized := by
    intro other hm
    rcases mem_insert.1 hm with rfl | hm
    · exact Path.normalize_normalize path
    · exact h.normalized other hm

/-- **Recording tells whether the path was missing.** -/
theorem record_eq (path : String) :
    manifest.record path = (!manifest.contains path, manifest.insert path) := by
  rw [record, putMissing_eq h.increasing]
  rfl

/-- **An orderly manifest is read back from its text.** -/
theorem ofText_text : ofText manifest.text = .ok manifest := by
  rw [Manifest.ofText_text, ofList_paths h.increasing h.normalized]

theorem increasing_bytes :
    manifest.paths.Pairwise fun path other => Text.bytes path < Text.bytes other :=
  h.increasing.imp fun hlt => Text.lt_iff_bytes_lt.1 hlt

end Orderly

/-! ## Histories -/

/-- What can happen to a manifest. -/
inductive Step where
  | insert (path : String)
  /-- It is replaced by the manifest of some paths. -/
  | collect (paths : List String)
  /-- It is replaced by what is read from a text. -/
  | load (text : String)

/-- The manifest after a step. A text that does not read changes nothing. -/
def after (manifest : Manifest) : Step → Manifest
  | .insert path => manifest.insert path
  | .collect paths => ofList paths
  | .load text =>
    match ofText text with
    | .ok loaded => loaded
    | .error _ => manifest

/-- The manifest after some steps from the empty one. -/
def run (steps : List Step) : Manifest := steps.foldl after empty

/-- The paths listed in a text, as they are spelled there. -/
def listed (text : String) : Except Json.Error (List String) := Json.readAll reader text

/-- The paths that a step records, as they are spelled. -/
def Step.recorded : Step → List String
  | .insert path => [path]
  | .collect paths => paths
  | .load text =>
    match listed text with
    | .ok paths => paths
    | .error _ => []

/-- Whether a step replaces the manifest. -/
def Step.replaces : Step → Bool
  | .insert _ => false
  | .collect _ => true
  | .load text =>
    match listed text with
    | .ok _ => true
    | .error _ => false

/-- The path was recorded in this spelling, and the manifest was not replaced since. -/
def RecordedSince (steps : List Step) (path : String) : Prop :=
  ∃ earlier step later, steps = earlier ++ step :: later ∧ path ∈ step.recorded ∧
    ∀ other ∈ later, other.replaces = false

theorem ofText_eq_listed (text : String) :
    ofText text = match listed text with
      | .ok paths => .ok (ofList paths)
      | .error error => .error error := by
  rw [ofText, listed]
  cases Json.readAll reader text <;> rfl

/-- What was recorded since the last replacement was recorded by the last step, or before it
if that was no replacement. -/
theorem recordedSince_append_singleton {steps : List Step} {step : Step} {path : String} :
    RecordedSince (steps ++ [step]) path ↔
      path ∈ step.recorded ∨ (step.replaces = false ∧ RecordedSince steps path) := by
  constructor
  · rintro ⟨earlier, origin, later, hsteps, hm, hlater⟩
    rcases List.eq_nil_or_concat' later with rfl | ⟨later, last, rfl⟩
    · obtain ⟨rfl, hlast⟩ := List.append_inj' hsteps rfl
      cases hlast
      exact .inl hm
    · rw [← List.cons_append, ← List.append_assoc] at hsteps
      obtain ⟨rfl, hlast⟩ := List.append_inj' hsteps rfl
      cases hlast
      exact .inr ⟨hlater step (by simp), earlier, origin, later, rfl, hm, fun other ho =>
        hlater other (List.mem_append_left _ ho)⟩
  · rintro (hm | ⟨hkept, earlier, origin, later, rfl, hm, hlater⟩)
    · exact ⟨steps, step, [], rfl, hm, fun _ ho => nomatch ho⟩
    · refine ⟨earlier, origin, later ++ [step], by simp, hm, fun other ho => ?_⟩
      rcases List.mem_append.1 ho with ho | ho
      · exact hlater other ho
      · rw [List.mem_singleton.1 ho]
        exact hkept

theorem Orderly.after {manifest : Manifest} (h : manifest.Orderly) (step : Step) :
    (manifest.after step).Orderly := by
  cases step with
  | insert path => exact h.insert path
  | collect paths => exact orderly_ofList paths
  | load text =>
      rw [Manifest.after]
      split
      · next hload => exact orderly_ofText hload
      · exact h

/-- **What is listed after a step**: what the step records, and what was listed before unless
it replaces that. -/
theorem mem_after {manifest : Manifest} {step : Step} {path : String} :
    path ∈ (manifest.after step).paths ↔
      (∃ spelled ∈ step.recorded, Path.normalize spelled = path) ∨
        (step.replaces = false ∧ path ∈ manifest.paths) := by
  cases step with
  | insert other => simp [after, Step.recorded, Step.replaces, mem_insert, eq_comm]
  | collect paths => simp [after, Step.recorded, Step.replaces, mem_ofList]
  | load text =>
      rw [after, ofText_eq_listed]
      cases h : listed text with
      | ok paths => simp [Step.recorded, Step.replaces, h, mem_ofList]
      | error error => simp [Step.recorded, Step.replaces, h]

theorem run_append_singleton (steps : List Step) (step : Step) :
    run (steps ++ [step]) = (run steps).after step := by
  rw [run, List.foldl_append]
  rfl

/-- **The manifest is orderly after any steps.** -/
theorem orderly_run (steps : List Step) : (run steps).Orderly := by
  induction steps using List.reverseRecOn with
  | nil => exact orderly_ofList []
  | append_singleton steps step ih =>
      rw [run_append_singleton]
      exact ih.after step

/-- **After any steps what was recorded since the last replacement is listed.** -/
theorem mem_run {steps : List Step} {path : String} :
    path ∈ (run steps).paths ↔
      ∃ spelled, RecordedSince steps spelled ∧ Path.normalize spelled = path := by
  induction steps using List.reverseRecOn with
  | nil =>
      refine iff_of_false List.not_mem_nil ?_
      rintro ⟨_, ⟨earlier, step, later, hsteps, -⟩, -⟩
      exact List.append_ne_nil_of_right_ne_nil earlier (List.cons_ne_nil step later) hsteps.symm
  | append_singleton steps step ih =>
      rw [run_append_singleton, mem_after, ih]
      simp only [recordedSince_append_singleton, or_and_right, exists_or, and_assoc,
        exists_and_left]

/-- Several spellings of a path may stand in a text. Whether they are recorded as they are
listed or as the set of them, they collapse to one path. -/
theorem ofList_sorted (paths : List String) : ofList (Sorted.ofList id paths) = ofList paths := by
  have hspelled : ∀ path, path ∈ Sorted.ofList id paths ↔ path ∈ paths := by
    intro path
    have h : path ∈ (Sorted.ofList id paths).map id ↔ path ∈ paths.map id :=
      Sorted.mem_keys_ofList
    rwa [List.map_id, List.map_id] at h
  have hlisted : ∀ path, path ∈ (ofList (Sorted.ofList id paths)).paths
      ↔ path ∈ (ofList paths).paths := by
    intro path
    rw [mem_ofList, mem_ofList, List.mem_map, List.mem_map]
    simp only [hspelled]
  exact congrArg Manifest.mk
    (Sorted.eq_of_mem_iff (increasing_ofList _) (increasing_ofList _) hlisted)

/-- **A manifest through any history.** After any steps the paths are in the order of their
bytes, each once, normalized and without backslashes. Recording a path tells whether it was
missing, and a path is found exactly if a spelling of it was recorded since the manifest was
last replaced. A text that does not read leaves the manifest, and one that reads gives the
manifest of the set of paths listed in it. The manifest is read back from its text as it is,
and so is every manifest that was read. -/
theorem history_kept (steps : List Step) :
    ((run steps).paths.Pairwise fun path other => Text.bytes path < Text.bytes other) ∧
    (∀ path ∈ (run steps).paths, Path.normalize path = path ∧ '\\' ∉ path.toList) ∧
    (∀ path, (((run steps).record path).1 = true ↔ (run steps).contains path = false) ∧
      ((run steps).record path).2 = run (steps ++ [.insert path])) ∧
    (∀ path, (run steps).contains path = true ↔
      ∃ spelled, RecordedSince steps spelled ∧ Path.normalize spelled = Path.normalize path) ∧
    (∀ text error, listed text = .error error →
      ofText text = .error error ∧ run (steps ++ [.load text]) = run steps) ∧
    (∀ text paths, listed text = .ok paths →
      ofText text = .ok (ofList (Sorted.ofList id paths)) ∧
        run (steps ++ [.load text]) = ofList (Sorted.ofList id paths)) ∧
    ofText (run steps).text = .ok (run steps) ∧
    ∀ text loaded, ofText text = .ok loaded → ofText loaded.text = .ok loaded := by
  have horderly := orderly_run steps
  refine ⟨horderly.increasing_bytes, ?_, ?_, ?_, ?_, ?_, horderly.ofText_text, ?_⟩
  · intro path hm
    have hnormal := horderly.normalized path hm
    have hback := Path.backslash_not_mem_normalize path
    rw [hnormal] at hback
    exact ⟨hnormal, hback⟩
  · intro path
    rw [horderly.record_eq, run_append_singleton]
    exact ⟨by simp, rfl⟩
  · intro path
    rw [contains_iff, mem_run]
  · intro text error herror
    have htext : ofText text = .error error := by rw [ofText_eq_listed, herror]
    rw [run_append_singleton, after, htext]
    exact ⟨rfl, rfl⟩
  · intro text paths hpaths
    have htext : ofText text = .ok (ofList (Sorted.ofList id paths)) := by
      rw [ofText_eq_listed, hpaths, ofList_sorted]
    rw [run_append_singleton, after, htext]
    exact ⟨rfl, rfl⟩
  · intro text loaded hloaded
    exact (orderly_ofText hloaded).ofText_text

/-! ## A manifest that is replaced and gets several spellings of a path -/

namespace Sample

/-- A manifest with two spellings of one path. -/
def text : String :=
  "\x7b\"tracedFiles\":[\"web\\\\index.html\",\"a.txt\",\"./web/index.html\"]\x7d"

/-- A path is recorded, the manifest is replaced, and two more spellings are recorded. -/
def steps : List Step :=
  [.insert "lost.txt", .load text, .insert "/ä.txt", .insert ".\\a.txt"]

end Sample

/-- The path recorded before is lost, two spellings of one path are one, and a text that does
not read changes nothing. -/
theorem history_kept_spellings :
    (run Sample.steps).paths = ["a.txt", "web/index.html", "ä.txt"] ∧
    ((run Sample.steps).record "lost.txt").1 = true ∧
    ((run Sample.steps).record "web\\index.html").1 = false ∧
    listed "oops" = .error ⟨.expectedValue, some ⟨1, 1⟩⟩ ∧
    run (Sample.steps ++ [.load "oops"]) = run Sample.steps ∧
    ofText (run Sample.steps).text = .ok (run Sample.steps) := by
  obtain ⟨-, -, hrecord, -, hfailed, -, hback, -⟩ := history_kept Sample.steps
  have hpaths : (run Sample.steps).paths = ["a.txt", "web/index.html", "ä.txt"] := by
    decide +kernel
  have hrefused : listed "oops" = .error ⟨.expectedValue, some ⟨1, 1⟩⟩ := rfl
  have hlost : (run Sample.steps).contains "lost.txt" = false := by
    rw [contains, hpaths]
    decide
  have hspelled : ((run Sample.steps).record "web\\index.html").1 ≠ true := by
    rw [Ne, (hrecord _).1, contains, hpaths]
    decide
  exact ⟨hpaths, (hrecord _).1.2 hlost, Bool.eq_false_iff.2 hspelled, hrefused,
    (hfailed _ _ hrefused).2, hback⟩

end Regeneration.Manifest
