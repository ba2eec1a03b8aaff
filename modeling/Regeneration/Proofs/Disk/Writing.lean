import Regeneration.Proofs.Disk.Keeping

/-!
# What writing outputs leaves on a disk

Outputs are written in order up to the first that fails. Every place of a written output
holds the text of the last one that leads there, whatever is at another place was there
before, and all that is new besides are directories above the outputs that were reached.
Only of the place of the output that fails nothing is told, as its file may have been
emptied or written in part. A failure names that output or the directory above it.

Main statements: `wrote_writeEach` for outputs that could all be written, and
`writeEach_eq_error` with `wrote_of_error` for those that could not.
-/

set_option autoImplicit false

namespace Regeneration.Disk

/-! ## Texts by place -/

/-- Where the path of an output leads below a directory. -/
def placeOf (current : Location) (root : DiskPath) (output : Output) : Location :=
  destination current (root.join (.ofText output.path))

/-- The text that outputs leave at a place when they are written in order: that of the
last output that leads there. -/
def textLeft (current : Location) (root : DiskPath) (outputs : List Output)
    (location : Location) : Option String :=
  (outputs.reverse.find? fun output => placeOf current root output == location).map
    Output.contents

variable {current location : Location} {root : DiskPath}

theorem textLeft_append (outputs others : List Output) :
    textLeft current root (outputs ++ others) location
      = (textLeft current root others location).or (textLeft current root outputs location) := by
  rw [textLeft, textLeft, textLeft, List.reverse_append, List.find?_append]
  cases others.reverse.find? fun output => placeOf current root output == location <;> rfl

theorem textLeft_singleton (output : Output) :
    textLeft current root [output] location
      = if location = placeOf current root output then some output.contents else none := by
  rw [textLeft, List.reverse_singleton, List.find?_singleton]
  by_cases h : location = placeOf current root output
  · rw [if_pos h, if_pos (beq_iff_eq.2 h.symm)]
    rfl
  · rw [if_neg h, if_neg fun he => h (beq_iff_eq.1 he).symm]
    rfl

/-! ## Disks after writing -/

/-- A place on the way to the directory above one of the outputs. -/
def AboveSome (current : Location) (root : DiskPath) (outputs : List Output)
    (location : Location) : Prop :=
  ∃ output ∈ outputs, Above current (root.join (.ofText output.path)) location

/-- A disk after outputs were written below a directory and directories were created above
the outputs that were reached. Of a spoiled place, if there is one, nothing is told but that a
directory there stays. -/
structure Wrote (root : DiskPath) (before after : Disk) (done reached : List Output)
    (spoiled : Option Location) : Prop where
  current : after.current = before.current
  written : ∀ location text, some location ≠ spoiled →
    textLeft before.current root done location = some text →
    after.get? location = some (.file (.text text))
  elsewhere : ∀ location, some location ≠ spoiled →
    textLeft before.current root done location = none →
    after.get? location = before.get? location ∨
      before.get? location = none ∧ after.get? location = some .directory ∧
        AboveSome before.current root reached location
  directories : ∀ location, before.get? location = some .directory →
    after.get? location = some .directory

variable {disk before middle after : Disk}

theorem Wrote.refl (root : DiskPath) (disk : Disk) : Wrote root disk disk [] [] none where
  current := rfl
  written _ _ _ ht := nomatch ht
  elsewhere _ _ _ := .inl rfl
  directories _ hd := hd

/-- Creating directories is writing no output. -/
theorem Opens.wrote {output : Output}
    (h : Opens (Above before.current (root.join (.ofText output.path))) before after) :
    Wrote root before after [] [output] none where
  current := h.current
  written _ _ _ ht := nomatch ht
  elsewhere location _ _ := (h.entries location).imp_right fun ⟨hnone, hdirectory, habove⟩ =>
    ⟨hnone, hdirectory, output, List.mem_singleton_self output, habove⟩
  directories _ hd := h.get? hd

/-- Less is told of a disk if a place counts as spoiled. -/
theorem Wrote.spoil {done reached : List Output} (h : Wrote root before after done reached none)
    (spoiled : Option Location) : Wrote root before after done reached spoiled where
  current := h.current
  written location text _ := h.written location text nofun
  elsewhere location _ := h.elsewhere location nofun
  directories := h.directories

theorem Wrote.append {done reached done' reached' : List Output} {spoiled : Option Location}
    (h : Wrote root before middle done reached none)
    (h' : Wrote root middle after done' reached' spoiled) :
    Wrote root before after (done ++ done') (reached ++ reached') spoiled where
  current := h'.current.trans h.current
  written location text hne ht := by
    have hwritten := h'.written location
    have helsewhere := h'.elsewhere location hne
    rw [h.current] at hwritten helsewhere
    rw [textLeft_append] at ht
    cases hlast : textLeft before.current root done' location with
    | some last =>
        rw [hlast] at ht
        cases ht
        exact hwritten text hne hlast
    | none =>
        rw [hlast, Option.none_or] at ht
        have hfile := h.written location text nofun ht
        -- a file is no place for a new directory
        rcases helsewhere hlast with he | ⟨hnone, -, -⟩
        · exact he.trans hfile
        · rw [hfile] at hnone
          cases hnone
  elsewhere location hne ht := by
    have helsewhere := h'.elsewhere location hne
    rw [h.current] at helsewhere
    rw [textLeft_append, Option.or_eq_none_iff] at ht
    have hsub : ∀ {part : List Output}, (∀ output ∈ part, output ∈ reached ++ reached') →
        AboveSome before.current root part location →
        AboveSome before.current root (reached ++ reached') location :=
      fun hpart ⟨output, hm, habove⟩ => ⟨output, hpart output hm, habove⟩
    rcases h.elsewhere location nofun ht.2 with he | ⟨hnone, hdirectory, habove⟩
    · rw [← he]
      exact (helsewhere ht.1).imp_right fun ⟨hnone, hdirectory, habove⟩ =>
        ⟨hnone, hdirectory, hsub (fun _ => List.mem_append_right reached) habove⟩
    · exact .inr ⟨hnone, h'.directories location hdirectory,
        hsub (fun _ => List.mem_append_left reached') habove⟩
  directories location hd := h'.directories location (h.directories location hd)

/-! ## One output -/

/-- Whatever was put into the file of an output, nothing was changed elsewhere. -/
theorem wrote_of_locateFile {output : Output} {contents : Contents}
    (h : disk.locateFile (root.join (.ofText output.path)) = .ok location) :
    Wrote root disk (disk.passed.set location (.file contents)) [] []
      (some (placeOf disk.current root output)) where
  current := rfl
  written _ _ _ ht := nomatch ht
  elsewhere other hne _ := by
    obtain ⟨hlocate, hnot, -⟩ := locateFile_eq_ok h
    have hplace : location = placeOf disk.current root output := locate_eq_ok hlocate
    have ho : other ≠ location := fun he => hne (congrArg some (he.trans hplace))
    refine .inl ?_
    rw [get?_set disk.passed _ (ne_root_of_get? hnot), if_neg ho, get?_passed]
  directories := (keeps_locateFile contents h).directories

/-- A disk with the text of an output at its place, and unchanged elsewhere. -/
theorem Wrote.of_spoiled {output : Output}
    (h : Wrote root before after [] [] (some (placeOf before.current root output)))
    (htext : after.get? (placeOf before.current root output)
      = some (.file (.text output.contents))) : Wrote root before after [output] [] none where
  current := h.current
  written location text _ ht := by
    rw [textLeft_singleton] at ht
    split at ht
    · next hl =>
        cases ht
        rw [hl, htext]
    · cases ht
  elsewhere location _ ht := by
    rw [textLeft_singleton] at ht
    split at ht
    · cases ht
    · next hl => exact h.elsewhere location (fun he => hl (Option.some.inj he)) rfl
  directories := h.directories

theorem wrote_writeTarget {output : Output}
    (h : disk.writeTarget (root.join (.ofText output.path)) output.contents
      = (.ok (), after)) : Wrote root disk after [output] [] none := by
  obtain ⟨location, hfile, rfl⟩ := write_eq_ok (writeTarget_eq_ok h)
  obtain ⟨hlocate, hnot, -⟩ := locateFile_eq_ok hfile
  apply (wrote_of_locateFile hfile).of_spoiled
  have hplace : placeOf disk.current root output = location := (locate_eq_ok hlocate).symm
  rw [hplace, get?_set disk.passed _ (ne_root_of_get? hnot), if_pos rfl]

/-- **A file that cannot be written** is all that may be changed. -/
theorem writeTarget_eq_error {output : Output} {error : RunError}
    (h : disk.writeTarget (root.join (.ofText output.path)) output.contents
      = (.error error, after)) :
    (∃ fault, error = .disk (root.join (.ofText output.path)).text fault) ∧
      Wrote root disk after [] [] (some (placeOf disk.current root output)) := by
  rcases writeTarget_eq h with ⟨hresult, -⟩ | ⟨fault, hresult, hwrite⟩
  · cases hresult
  · refine ⟨⟨fault, Except.error.inj hresult⟩, ?_⟩
    rcases write_eq_error hwrite with rfl | ⟨location, left, hfile, rfl⟩
    · exact ⟨rfl, nofun, fun _ _ _ => .inl rfl, fun _ hd => hd⟩
    · exact wrote_of_locateFile hfile

/-- **Writing an output** leaves its text at its place. -/
theorem wrote_writeOutput {output : Output}
    (h : writeOutput root disk output = (.ok (), after)) :
    Wrote root disk after [output] [output] none := by
  obtain ⟨ready, hopens, hwrite | ⟨-, parent, fault, -, hresult⟩⟩ := writeOutput_cases h
  · exact hopens.wrote.append (wrote_writeTarget hwrite)
  · cases hresult

/-- A failure at the place of an output or at the directory above it. -/
def Concerns (root : DiskPath) (output : Output) (error : RunError) : Prop :=
  ∃ path fault, error = .disk path.text fault ∧
    (path = root.join (.ofText output.path) ∨
      (root.join (.ofText output.path)).parent? = some path)

/-- **An output that cannot be written** leaves nothing but directories above it, apart from
its own place. -/
theorem writeOutput_eq_error {output : Output} {error : RunError}
    (h : writeOutput root disk output = (.error error, after)) :
    Concerns root output error ∧
      Wrote root disk after [] [output] (some (placeOf disk.current root output)) := by
  obtain ⟨ready, hopens, hwrite | ⟨hsame, parent, fault, hp, hresult⟩⟩ := writeOutput_cases h
  · obtain ⟨⟨fault, rfl⟩, hwrote⟩ := writeTarget_eq_error hwrite
    rw [hopens.current] at hwrote
    exact ⟨⟨_, fault, rfl, .inl rfl⟩, hopens.wrote.append hwrote⟩
  · cases hresult
    rw [hsame]
    exact ⟨⟨parent, fault, rfl, .inr hp⟩, hopens.wrote.spoil _⟩

/-! ## Outputs in order -/

/-- **Outputs that can all be written.** -/
theorem wrote_writeEach {outputs : List Output}
    (h : writeEach root disk outputs = (.ok (), after)) :
    Wrote root disk after outputs outputs none := by
  induction outputs generalizing disk with
  | nil =>
      cases h
      exact Wrote.refl root after
  | cons output rest ih =>
      obtain ⟨middle, hw, hrest⟩ := writeEach_cons_eq_ok h
      exact (wrote_writeOutput hw).append (ih hrest)

/-- Writing that fails comes to a first output that cannot be written. -/
theorem writeEach_eq_error {outputs : List Output} {error : RunError}
    (h : writeEach root disk outputs = (.error error, after)) :
    ∃ done failing rest middle, outputs = done ++ failing :: rest ∧
      writeEach root disk done = (.ok (), middle) ∧
      writeOutput root middle failing = (.error error, after) := by
  induction outputs generalizing disk with
  | nil => cases h
  | cons output rest ih =>
      rw [writeEach] at h
      split at h
      · next hw =>
          cases h
          exact ⟨[], output, rest, disk, rfl, rfl, hw⟩
      · next first hw =>
          obtain ⟨done, failing, others, middle, rfl, hdone, hfailing⟩ := ih h
          refine ⟨output :: done, failing, others, middle, rfl, ?_, hfailing⟩
          rw [writeEach, hw]
          exact hdone

/-- **Outputs up to one that cannot be written.** -/
theorem wrote_of_error {done : List Output} {failing : Output} {error : RunError}
    (hdone : writeEach root disk done = (.ok (), middle))
    (hfailing : writeOutput root middle failing = (.error error, after)) :
    Wrote root disk after done (done ++ [failing])
      (some (placeOf disk.current root failing)) := by
  have hwritten := wrote_writeEach hdone
  have hwrote := (writeOutput_eq_error hfailing).2
  rw [hwritten.current] at hwrote
  have hall := hwritten.append hwrote
  rw [List.append_nil] at hall
  exact hall

end Regeneration.Disk
