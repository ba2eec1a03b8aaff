import Regeneration.Proofs.Disk.Reading
import Regeneration.Proofs.Disk.Writing

/-!
# Writing stays below a directory

The names of a checked path have no parent among them, so that following them from a
directory never leaves it, wherever one stops. The path is relative besides, so joining it
to a root gives a path below the root. All paths are checked before anything is written.

What writing changes is then told by the places that outputs lead to and by the way there:
the files written lie below the root, and a directory that was created lies below it as well
or on the way to it. This holds of the disk after any number of outputs, whether or not one
of them could not be written.

Main statement: `writing_confined`. What a checked path is says `checked_eq_ok_iff`, where
it leads `StaysBelow`, and what writing changes `confined_of_wrote`.
-/

set_option autoImplicit false

namespace Regeneration

namespace Path

/-! ## Checked paths -/

theorem checked_eq_ok_iff {path checked : String} :
    Path.checked path = .ok checked ↔
      checked = normalize path ∧ normalize path ≠ "" ∧
        ['.', '.'] ∉ components (normalize path) := by
  rw [← checked?_eq_some_iff, Path.checked]
  cases checked? path with
  | none => simp
  | some other => simp

/-- A relative path with forward slashes that can be followed from any directory without
leaving it. -/
structure StaysBelow (path : String) : Prop where
  no_backslash : '\\' ∉ path.toList
  no_slash : path.toList.head? ≠ some '/'
  relative : (DiskPath.ofText path).isAbsolute = false
  walk : ∀ base front, front <+: (DiskPath.ofText path).names → base <+: front.foldl Disk.step base

theorem staysBelow_of_checked {path checked : String} (h : Path.checked path = .ok checked) :
    StaysBelow checked := by
  obtain ⟨rfl, -, hparent⟩ := checked_eq_ok_iff.1 h
  refine ⟨backslash_not_mem_normalize path, head?_normalize path, isAbsolute_normalize path, ?_⟩
  intro base front hfront
  rw [Disk.foldl_step fun hm => parent_not_mem_names hparent (hfront.subset hm)]
  exact List.prefix_append base _

end Path

namespace Disk

variable {disk before after : Disk} {root : DiskPath} {current location : Location}

/-- Where the path of an output leads below a directory, once it is checked. -/
def resolved (current : Location) (root : DiskPath) (output : Output) : Location :=
  destination current root ++ (Path.location output.path).map String.ofList

theorem placeOf_normalized (current : Location) (root : DiskPath) {output : Output}
    (h : ['.', '.'] ∉ Path.components (Path.normalize output.path)) :
    placeOf current root (normalized output) = resolved current root output :=
  destination_join current root h

/-! ## Where writing goes -/

/-- A place on the way to a path below a directory is below the directory, or on the way to
it. -/
theorem onTheWay_join {path : DiskPath} (hr : path.isAbsolute = false) (hn : ".." ∉ path.names)
    (h : OnTheWay current (root.join path) location) :
    destination current root <+: location ∨ OnTheWay current root location := by
  obtain ⟨names, hnames, rfl⟩ := h
  rw [DiskPath.isAbsolute_join root hr]
  rw [DiskPath.names_join root hr] at hnames
  rcases List.prefix_or_prefix_of_prefix hnames (List.prefix_append root.names path.names) with
    hroot | ⟨more, rfl⟩
  · exact .inr ⟨names, hroot, rfl⟩
  · -- past the root only names of the path follow, and none of them leads back up
    have hmore : more <+: path.names := (List.prefix_append_right_inj root.names).1 hnames
    rw [List.foldl_append, foldl_step fun hm => hn (hmore.subset hm)]
    exact .inl (List.prefix_append _ _)

/-- The way to a directory lies above it if it has no parents among its names. -/
theorem prefix_of_onTheWay (hr : ".." ∉ root.names) (h : OnTheWay current root location) :
    location <+: destination current root := by
  obtain ⟨names, hnames, rfl⟩ := h
  rw [destination, foldl_step hr, foldl_step fun hm => hr (hnames.subset hm)]
  exact (List.prefix_append_right_inj _).2 (hnames.filter _)

/-- What is above a checked output is below the root or on the way to it. -/
theorem above_normalized {output : Output}
    (h : ['.', '.'] ∉ Path.components (Path.normalize output.path))
    (ha : Above current (root.join (.ofText (normalized output).path)) location) :
    destination current root <+: location ∨ OnTheWay current root location := by
  obtain ⟨parent, hparent, hway⟩ := ha
  exact onTheWay_join (Path.isAbsolute_normalize output.path) (Path.parent_not_mem_names h)
    (hway.of_parent hparent)

/-! ## What every write keeps -/

theorem keeps_writeTarget {path : DiskPath} {text : String} {result : Except RunError Unit}
    (h : disk.writeTarget path text = (result, after)) : ∃ target, Keeps target disk after := by
  rcases writeTarget_eq h with ⟨-, hwrite⟩ | ⟨fault, -, hwrite⟩
  · obtain ⟨location, hfile, rfl⟩ := write_eq_ok hwrite
    exact ⟨some location, keeps_locateFile _ hfile⟩
  · rcases write_eq_error hwrite with rfl | ⟨location, left, hfile, rfl⟩
    · exact ⟨none, keeps_passed disk⟩
    · exact ⟨some location, keeps_locateFile left hfile⟩

theorem keeps_writeOutput {output : Output} {result : Except RunError Unit}
    (h : writeOutput root disk output = (result, after)) : ∃ target, Keeps target disk after := by
  obtain ⟨ready, hopens, hwrite | ⟨rfl, -⟩⟩ := writeOutput_cases h
  · obtain ⟨target, hkeeps⟩ := keeps_writeTarget hwrite
    exact ⟨target, hopens.keeps.trans hkeeps⟩
  · exact ⟨none, hopens.keeps⟩

/-- **What every write keeps, writing keeps**, whether or not it fails. -/
theorem writeEach_induction {motive : Disk → Prop}
    (step : ∀ target before after, Keeps target before after → motive before → motive after)
    {outputs : List Output} {result : Except RunError Unit}
    (h : writeEach root disk outputs = (result, after)) (hd : motive disk) : motive after := by
  induction outputs generalizing disk with
  | nil =>
      cases h
      exact hd
  | cons output rest ih =>
      rw [writeEach] at h
      split at h
      · next hw =>
          -- an output that fails may still have created directories, which is a step too
          cases h
          obtain ⟨target, hkeeps⟩ := keeps_writeOutput hw
          exact step target disk after hkeeps hd
      · next middle hw =>
          obtain ⟨target, hkeeps⟩ := keeps_writeOutput hw
          exact ih h (step target disk middle hkeeps hd)

/-- Every output that was written is led to by its path. -/
theorem locate_of_writeEach {outputs : List Output}
    (h : writeEach root disk outputs = (.ok (), after)) :
    ∀ output ∈ outputs, after.locate (root.join (.ofText output.path))
      = .ok (placeOf disk.current root output) := by
  induction outputs generalizing disk with
  | nil => exact fun _ hm => nomatch hm
  | cons output rest ih =>
      obtain ⟨middle, hw, hrest⟩ := writeEach_cons_eq_ok h
      obtain ⟨location, hlocate, -, -, hkeeps⟩ := writeOutput_eq_ok hw
      have hothers := ih hrest
      rw [hkeeps.current] at hothers
      have hplace := locate_eq_ok hlocate
      rw [hkeeps.current] at hplace
      refine List.forall_mem_cons.2 ⟨?_, hothers⟩
      rw [placeOf, ← hplace]
      -- the other outputs leave the way there
      apply writeEach_induction ?_ hrest hlocate
      intro target before after hkept
      exact hkept.locate

/-! ## What writing changes -/

theorem textLeft_eq_some {outputs : List Output} {text : String}
    (h : textLeft current root outputs location = some text) :
    ∃ output ∈ outputs, placeOf current root output = location ∧ output.contents = text := by
  obtain ⟨output, hfound, rfl⟩ := Option.map_eq_some_iff.1 h
  have hplace := List.find?_some hfound
  exact ⟨output, List.mem_reverse.1 (List.mem_of_find?_eq_some hfound), beq_iff_eq.1 hplace, rfl⟩

/-- The text left at a place is that of the last output that leads there. -/
theorem textLeft_of_last (front back : List Output) (last : Output)
    (h : ∀ other ∈ back, placeOf current root other ≠ placeOf current root last) :
    textLeft current root (front ++ last :: back) (placeOf current root last)
      = some last.contents := by
  have hback : textLeft current root back (placeOf current root last) = none := by
    rw [Option.eq_none_iff_forall_ne_some]
    intro text htext
    obtain ⟨other, hm, hplace, -⟩ := textLeft_eq_some htext
    exact h other hm hplace
  rw [← List.singleton_append, textLeft_append, textLeft_append, hback, textLeft_singleton,
    if_pos rfl]
  rfl

/-- What writing some outputs below a directory may change, whether or not it fails. Only what
lies below the directory is created or changed, but for directories on the way to it that were
missing; a file stays unless an output leads to it, and so does every directory. -/
structure Confined (root : DiskPath) (outputs : List Output) (before after : Disk) : Prop where
  current : after.current = before.current
  below : ∀ location, after.get? location ≠ before.get? location →
    destination before.current root <+: location ∨
      OnTheWay before.current root location ∧ before.get? location = none ∧
        after.get? location = some .directory
  files : ∀ location contents, before.get? location = some (.file contents) →
    (∀ output ∈ outputs, resolved before.current root output ≠ location) →
    after.get? location = some (.file contents)
  directories : ∀ location, before.get? location = some .directory →
    after.get? location = some .directory

/-- **Writing checked outputs is confined**, as many of them as were written and reached, also
if the place of one of them is spoiled. -/
theorem confined_of_wrote {outputs done reached : List Output} {spoiled : Option Location}
    (hsafe : ∀ output ∈ outputs, ['.', '.'] ∉ Path.components (Path.normalize output.path))
    (h : Wrote root before after done reached spoiled)
    (hdone : ∀ output ∈ done, output ∈ outputs.map normalized)
    (hreached : ∀ output ∈ reached, output ∈ outputs.map normalized)
    (hspoiled : ∀ location, some location = spoiled →
      ∃ output ∈ outputs.map normalized, placeOf before.current root output = location) :
    Confined root outputs before after := by
  -- places written or spoiled are those of outputs
  have hplace : ∀ location, (∃ output ∈ outputs.map normalized,
      placeOf before.current root output = location) →
      ∃ output ∈ outputs, resolved before.current root output = location := by
    rintro location ⟨_, hm, rfl⟩
    obtain ⟨output, houtput, rfl⟩ := List.mem_map.1 hm
    exact ⟨output, houtput, (placeOf_normalized before.current root (hsafe output houtput)).symm⟩
  have hcases : ∀ location,
      (∃ output ∈ outputs, resolved before.current root output = location) ∨
        some location ≠ spoiled ∧ textLeft before.current root done location = none := by
    intro location
    by_cases hs : some location = spoiled
    · exact .inl (hplace location (hspoiled location hs))
    · cases hleft : textLeft before.current root done location with
      | none => exact .inr ⟨hs, rfl⟩
      | some text =>
          obtain ⟨output, hm, hat, -⟩ := textLeft_eq_some hleft
          exact .inl (hplace location ⟨output, hdone output hm, hat⟩)
  refine ⟨h.current, fun location hne => ?_, fun location contents hfile hother => ?_,
    h.directories⟩
  · rcases hcases location with ⟨output, -, rfl⟩ | ⟨hs, hleft⟩
    · exact .inl (List.prefix_append _ _)
    · rcases h.elsewhere location hs hleft with hsame | ⟨hnone, hdirectory, _, hm, habove⟩
      · exact absurd hsame hne
      · -- a directory was created above an output
        obtain ⟨output, houtput, rfl⟩ := List.mem_map.1 (hreached _ hm)
        rcases above_normalized (hsafe output houtput) habove with hbelow | hway
        · exact .inl hbelow
        · exact .inr ⟨hway, hnone, hdirectory⟩
  · rcases hcases location with ⟨output, houtput, hat⟩ | ⟨hs, hleft⟩
    · exact absurd hat (hother output houtput)
    · rcases h.elsewhere location hs hleft with hsame | ⟨hnone, -, -⟩
      · exact hsame.trans hfile
      · rw [hfile] at hnone
        cases hnone

theorem confined_writeEach {outputs : List Output} {result : Except RunError Unit}
    (hsafe : ∀ output ∈ outputs, ['.', '.'] ∉ Path.components (Path.normalize output.path))
    (h : writeEach root disk (outputs.map normalized) = (result, after)) :
    Confined root outputs disk after := by
  cases result with
  | ok => exact confined_of_wrote hsafe (wrote_writeEach h) (fun _ hm => hm) (fun _ hm => hm) nofun
  | error error =>
      obtain ⟨done, failing, rest, middle, hsplit, hdone, hfailing⟩ := writeEach_eq_error h
      have hmem : ∀ output ∈ done ++ [failing], output ∈ outputs.map normalized := by
        intro output hm
        rw [hsplit, ← List.singleton_append, ← List.append_assoc]
        exact List.mem_append_left rest hm
      refine confined_of_wrote hsafe (wrote_of_error hdone hfailing) ?_ hmem ?_
      · exact fun output hm => hmem output (List.mem_append_left [failing] hm)
      · intro location hl
        exact ⟨failing, hmem failing (List.mem_append_right done (List.mem_singleton_self failing)),
          (Option.some.inj hl).symm⟩

/-- An output of a list led to the given place and was the last to do so; its text is there. -/
def HoldsLast (root : DiskPath) (outputs : List Output) (before after : Disk)
    (location : Location) : Prop :=
  ∃ front last back, outputs = front ++ last :: back ∧
    resolved before.current root last = location ∧
    (∀ other ∈ back, resolved before.current root other ≠ location) ∧
    after.locate (root.join (.ofText (Path.normalize last.path))) = .ok location ∧
    after.get? location = some (.file (.text last.contents))

theorem exists_last {outputs : List Output} {output : Output} (hm : output ∈ outputs)
    (current : Location) (root : DiskPath) :
    ∃ front last back, outputs = front ++ last :: back ∧
      resolved current root last = resolved current root output ∧
      ∀ other ∈ back, resolved current root other ≠ resolved current root output := by
  have hsome : (outputs.reverse.find? fun other =>
      resolved current root other == resolved current root output).isSome := by
    rw [List.find?_isSome]
    exact ⟨output, List.mem_reverse.2 hm, beq_iff_eq.2 rfl⟩
  obtain ⟨last, hlast⟩ := Option.isSome_iff_exists.1 hsome
  obtain ⟨hplace, later, earlier, hsplit, hlater⟩ := List.find?_eq_some_iff_append.1 hlast
  refine ⟨earlier.reverse, last, later.reverse, ?_, beq_iff_eq.1 hplace, ?_⟩
  · rw [← List.reverse_reverse outputs, hsplit, List.reverse_append, List.reverse_cons,
      List.append_assoc, List.singleton_append]
  · intro other hother
    simpa using hlater other (List.mem_reverse.1 hother)

/-- **Outputs that were all written** are where their paths lead, but for those written over. -/
theorem holdsLast_of_writeEach {outputs : List Output}
    (hsafe : ∀ output ∈ outputs, ['.', '.'] ∉ Path.components (Path.normalize output.path))
    (h : writeEach root disk (outputs.map normalized) = (.ok (), after)) :
    ∀ output ∈ outputs,
      HoldsLast root outputs disk after (resolved disk.current root output) := by
  intro output hm
  obtain ⟨front, last, back, rfl, hlast, hback⟩ := exists_last hm disk.current root
  have hplace : ∀ other ∈ front ++ last :: back,
      placeOf disk.current root (normalized other) = resolved disk.current root other :=
    fun other hother => placeOf_normalized disk.current root (hsafe other hother)
  have hmem : last ∈ front ++ last :: back := List.mem_append_right front List.mem_cons_self
  refine ⟨front, last, back, rfl, hlast, hback, ?_, ?_⟩
  · have hlocate := locate_of_writeEach h (normalized last) (List.mem_map_of_mem hmem)
    rw [hplace last hmem, hlast] at hlocate
    exact hlocate
  · -- no later output leads there, so the text left is that of the last one
    apply (wrote_writeEach h).written _ _ nofun
    rw [← hlast, ← hplace last hmem, List.map_append, List.map_cons]
    apply textLeft_of_last
    intro _ hother
    obtain ⟨other, hin, rfl⟩ := List.mem_map.1 hother
    have hinall : other ∈ front ++ last :: back :=
      List.mem_append_right front (List.mem_cons_of_mem last hin)
    rw [hplace other hinall, hplace last hmem, hlast]
    exact hback other hin

/-- **Writing stays below its directory and loses nothing.** A path is accepted if its
normalized spelling is not empty and has no parent components, and then it never leads out of
a directory. If some path is refused, the first such is reported and nothing is written.
Otherwise, whether or not writing fails, what is created or changed lies below the root, apart
from missing directories on the way to it, and every file that no output leads to stays; and
if it succeeds, the place of each output holds the text of the last output that leads there. -/
theorem writing_confined (root : DiskPath) (disk : Disk) (outputs : List Output) :
    (∀ path checked, Path.checked path = .ok checked ↔
      checked = Path.normalize path ∧ Path.normalize path ≠ "" ∧
        ['.', '.'] ∉ Path.components (Path.normalize path)) ∧
    (∀ path checked, Path.checked path = .ok checked → Path.StaysBelow checked) ∧
    (∀ bad, firstUnsafe? outputs = some bad →
      writeAll root disk outputs = (.error (.unsafePath bad.path), disk)) ∧
    (firstUnsafe? outputs = none →
      ∀ result after, writeAll root disk outputs = (result, after) →
        Confined root outputs disk after ∧
        (".." ∉ root.names → ∀ location, after.get? location ≠ disk.get? location →
          destination disk.current root <+: location ∨
            location <+: destination disk.current root) ∧
        (result = .ok () → ∀ output ∈ outputs,
          HoldsLast root outputs disk after (resolved disk.current root output))) := by
  refine ⟨fun _ _ => Path.checked_eq_ok_iff, fun _ _ => Path.staysBelow_of_checked, ?_, ?_⟩
  · intro bad hbad
    apply writeAll_of_unsafe
    rw [checkOutputs_eq, hbad]
  · intro hgood result after h
    have hsafe := no_parent_of_safe hgood
    rw [writeAll, checkOutputs_eq, hgood] at h
    have hconfined := confined_writeEach hsafe h
    refine ⟨hconfined, ?_, ?_⟩
    · intro hroot location hne
      exact (hconfined.below location hne).imp_right fun hway => prefix_of_onTheWay hroot hway.1
    · rintro rfl
      exact holdsLast_of_writeEach hsafe h

/-- Two spellings of one path are written below a directory that is missing, beside a file: the
file stays, and of the two texts the later one is left. With a third path that leads out of the
directory nothing is written. -/
theorem writing_confined_spellings :
    let disk : Disk := {
      entries := [(["home", "keep.txt"], .file (.text "kept")), (["home"], .directory)]
      current := ["home"] }
    let root : DiskPath := .ofText "out"
    let outputs : List Output := [⟨".\\a\\b.txt", "one"⟩, ⟨"/a/./b.txt", "two"⟩]
    ∃ after, writeAll root disk outputs = (.ok (), after) ∧
      after.get? ["home", "keep.txt"] = some (.file (.text "kept")) ∧
      HoldsLast root outputs disk after ["home", "out", "a", "b.txt"] ∧
      writeAll root disk (outputs ++ [⟨"a/../../c.txt", "three"⟩])
        = (.error (.unsafePath "a/../../c.txt"), disk) := by
  intro disk root outputs
  obtain ⟨-, -, -, hgood⟩ := writing_confined root disk outputs
  obtain ⟨-, -, hbad, -⟩ :=
    writing_confined root disk (outputs ++ [⟨"a/../../c.txt", "three"⟩])
  have hresult : writeAll root disk outputs = (.ok (), (writeAll root disk outputs).2) := rfl
  obtain ⟨hconfined, -, hholds⟩ := hgood rfl _ _ hresult
  refine ⟨_, hresult, hconfined.files _ _ rfl ?_, ?_, hbad ⟨"a/../../c.txt", "three"⟩ rfl⟩
  · decide
  · exact hholds rfl ⟨"/a/./b.txt", "two"⟩ (by simp [outputs])

end Disk

end Regeneration
