import Regeneration.Proofs.Command.Prepared
import Regeneration.Proofs.Disk.Reading
import Regeneration.Proofs.Run.Stale

/-!
# Showing a record

A record is shown as the text of the tree that it describes. What is shown goes by the text
that is read, wherever and under whatever path it is read. But the path that was given is
looked at like that of an output: a path with a parent component, or one of which nothing
is left when it is normalized, is refused, although the record was read there.

A run writes the text of every file and a record that shows just this text. From any
directory, a path that leads to the record shows what lies at the file's path, unless it is
refused.

Main statements: `render_described` and `render_refused`.
-/

set_option autoImplicit false

namespace Regeneration

open Outcome

/-! ## What the text of a record shows -/

namespace Record

/-- A text that reads as a record in which no siblings have one id, and the text of the
leaves of that record. -/
def Renders (text content : String) : Prop :=
  ∃ record, ofText text = .ok record ∧ record.Consistent ∧ record.leafText = content

/-- Such a record is one that is rebuilt, and its text is that of the tree. -/
theorem renders_iff {text content : String} :
    Renders text content ↔
      ∃ record tree, ofText text = .ok record ∧ record.toSegment = .ok tree ∧
        tree.render = content := by
  constructor
  · rintro ⟨record, hread, hconsistent, rfl⟩
    obtain ⟨tree, htree⟩ := hconsistent.exists_toSegment
    refine ⟨record, tree, hread, htree, ?_⟩
    rw [← leafText_ofSegment, (toSegment_eq_ok htree).1]
  · rintro ⟨record, tree, hread, htree, rfl⟩
    obtain ⟨rfl, hwell⟩ := toSegment_eq_ok htree
    exact ⟨ofSegment tree, hread, consistent_ofSegment hwell, leafText_ofSegment tree⟩

/-- A text shows one text at most. -/
theorem Renders.unique {text content other : String} (h : Renders text content)
    (h' : Renders text other) : other = content := by
  obtain ⟨record, hread, -, rfl⟩ := h
  obtain ⟨record', hread', -, rfl⟩ := h'
  rw [hread] at hread'
  cases hread'
  rfl

end Record

namespace File

variable {path : String}

theorem make_of_checked {checked : String} (tree : Segment)
    (h : Path.checked? path = some checked) : make path tree = .ok ⟨checked, tree⟩ :=
  make_eq_ok_iff.2 ⟨h, rfl⟩

theorem make_of_refused (tree : Segment) (h : Path.checked? path = none) :
    make path tree = .error (.unsafePath path) := by
  rw [make, Path.checked, h]

/-- **What a record's text comes to as a file**: a file that shows it, or the refusal of the
path, or nothing is shown by the text. -/
theorem ofRecordText_cases (path text : String) :
    (∃ file checked, ofRecordText path text = .ok file ∧ Path.checked? path = some checked ∧
        Record.Renders text file.content) ∨
      (∃ content, Record.Renders text content ∧ Path.checked? path = none ∧
        ofRecordText path text = .error (.unsafePath path)) ∨
      ∃ error, ofRecordText path text = .error error ∧
        ∀ content, ¬ Record.Renders text content := by
  rw [ofRecordText]
  cases hrecord : Record.ofText text with
  | error problem =>
      refine .inr (.inr ⟨_, rfl, ?_⟩)
      rintro content ⟨record, hread, -⟩
      rw [hrecord] at hread
      cases hread
  | ok record =>
      cases htree : record.toSegment with
      | error problem =>
          simp only [htree]
          refine .inr (.inr ⟨_, rfl, fun content hrenders => ?_⟩)
          obtain ⟨other, tree, hread, hother, -⟩ := Record.renders_iff.1 hrenders
          rw [hrecord] at hread
          cases hread
          rw [htree] at hother
          cases hother
      | ok tree =>
          simp only [htree]
          have hrenders : Record.Renders text tree.render :=
            Record.renders_iff.2 ⟨record, tree, hrecord, htree, rfl⟩
          cases hpath : Path.checked? path with
          | none => exact .inr (.inl ⟨_, hrenders, rfl, make_of_refused tree hpath⟩)
          | some checked => exact .inl ⟨_, checked, make_of_checked tree hpath, rfl, hrenders⟩

end File

/-- A disk as it is seen from a directory. -/
def Disk.seenFrom (disk : Disk) (current : Location) : Disk := { disk with current }

/-- A file is read by every path that leads to it, as a file's path may. -/
theorem Disk.readText_seenFrom {disk : Disk} {current place : Location} {path : DiskPath}
    {text : String} (hfile : disk.get? place = some (.file (.text text)))
    (hplace : (disk.seenFrom current).locate path = .ok place)
    (hslash : path.endsInSlash = false) : (disk.seenFrom current).readText path = .ok text :=
  Holds.readText ⟨place, hplace, hfile, hslash⟩

/-- The record of a generated file shows the file's text. -/
theorem File.Generated.renders {file : File} (h : file.Generated) (pretty : Bool) :
    Record.Renders (file.recordText pretty) file.content :=
  ⟨file.record, h.ofText_recordText pretty, Record.consistent_ofSegment h.wellFormed,
    Record.leafText_ofSegment file.tree⟩

namespace Command

/-! ## Showing goes by the text -/

/-- What showing a record comes to where a text is read. -/
theorem perform_render_eq {disk : Disk} {path text : String}
    (h : disk.readText (.ofText path) = .ok text) :
    perform disk (.render path)
      = ((lift (File.ofRecordText path text)).map File.content, disk) := by
  have hgiven : readGiven disk.readText "trace" path = .ok text := by
    rw [readGiven, h]
  have hprepare : prepareRender disk.readText path
      = (lift (File.ofRecordText path text)).map fun file => ⟨default, [], file.content⟩ := by
    rw [prepareRender, hgiven]
    rfl
  rw [perform, performReading, prepare, hprepare]
  cases lift (File.ofRecordText path text) <;> rfl

/-- Showing a record at a path where a text is read: it is shown exactly what the text
shows, unless the path is refused, and it fails only if it is or the text shows nothing. -/
structure GoesByText (disk : Disk) (path text : String) : Prop where
  shown : ∀ content, perform disk (.render path) = (.ok content, disk) ↔
    Record.Renders text content ∧ Path.checked? path ≠ none
  failed : ∀ error after, perform disk (.render path) = (.error error, after) →
    after = disk ∧
      ((∀ content, ¬ Record.Renders text content) ∨
        Path.checked? path = none ∧ error = .failed (.unsafePath path))

/-- Whatever text is read at a path, showing the record goes by it. -/
theorem goesByText {disk : Disk} {path text : String}
    (h : disk.readText (.ofText path) = .ok text) : GoesByText disk path text := by
  have hperform := perform_render_eq h
  rcases File.ofRecordText_cases path text with ⟨file, checked, hfile, hchecked, hrenders⟩ |
    ⟨_, -, hrefused, herror⟩ | ⟨error, herror, hnone⟩
  · -- a file is made, and its content is what the text shows
    rw [hfile] at hperform
    constructor
    · intro content
      rw [hperform]
      constructor
      · intro hshown
        cases hshown
        exact ⟨hrenders, by simp [hchecked]⟩
      · rintro ⟨hcontent, -⟩
        rw [hrenders.unique hcontent]
        rfl
    · intro error after hfails
      rw [hperform] at hfails
      cases hfails
  · -- the tree was built, only the path is refused
    rw [herror] at hperform
    constructor
    · intro content
      rw [hperform]
      exact iff_of_false nofun fun hshown => hshown.2 hrefused
    · intro error after hfails
      rw [hperform] at hfails
      cases hfails
      exact ⟨rfl, .inr ⟨hrefused, rfl⟩⟩
  · -- no tree was built, so nothing is shown by the text
    rw [herror] at hperform
    constructor
    · intro content
      rw [hperform]
      exact iff_of_false nofun fun hshown => hnone content hshown.1
    · intro error after hfails
      rw [hperform] at hfails
      cases hfails
      exact ⟨rfl, .inl hnone⟩

/-! ## Records that a run wrote -/

theorem generated_of_loadGenerated {read : Reading} {path : String} {generated : Generated}
    (h : loadGenerated read path = .ok generated) :
    ∀ file ∈ generated.files, file.Generated := by
  obtain ⟨text, -, h⟩ := bind_eq_ok.1 h
  obtain ⟨skeleton, hskeleton, h⟩ := bind_eq_ok.1 h
  obtain ⟨files, hfiles, h⟩ := bind_eq_ok.1 h
  cases h
  exact Skeleton.files_generated (lift_eq_ok.1 hskeleton) (lift_eq_ok.1 hfiles)

/-- The files of a run are generated ones, merged. -/
theorem Reads.generated_report {read : Reading} {inputs : Inputs} {config : Config}
    {generated : Generated} {previous : Previous} {strict : Bool} {report : Report}
    (hreads : Reads read inputs config generated previous)
    (hreport : Run.report (source read inputs) strict previous generated.files = .ok report) :
    ∀ file ∈ report.model.files, file.Generated := by
  obtain ⟨failures, loaded, hload, rfl⟩ := Run.report_eq_ok hreport
  exact Run.generated_assemble failures
    (Run.sound_load (Previous.sound_ofSource hreads.opened) hload)
    (generated_of_loadGenerated hreads.handed)

/-- What was written of a file, its text and its record. Wherever the record is read, it
shows the text. If all outputs lead to places of their own, the text lies at its path, and
from every directory any path that leads to the place of the record shows the text.
Refused paths are left out. -/
structure ShownBy (root : DiskPath) (after : Disk) (outputs : List Output)
    (text record : Output) : Prop where
  text_written : text ∈ outputs
  record_written : record ∈ outputs
  shown : ∀ disk path, disk.readText (.ofText path) = .ok record.contents →
    Path.checked? path ≠ none → perform disk (.render path) = (.ok text.contents, disk)
  reached : (outputs.map fun output => Path.location output.path).Nodup →
    after.readText (root.join (.ofText (Path.normalize text.path))) = .ok text.contents ∧
    ∃ place, after.locate (root.join (.ofText (Path.normalize record.path))) = .ok place ∧
      ∀ current path, (after.seenFrom current).locate (.ofText path) = .ok place →
        (DiskPath.ofText path).endsInSlash = false → Path.checked? path ≠ none →
          perform (after.seenFrom current) (.render path)
            = (.ok text.contents, after.seenFrom current)

theorem shownBy_of_renders {root : DiskPath} {disk after : Disk} {outputs : List Output}
    {text record : Output} (hwrite : Disk.writeAll root disk outputs = (.ok (), after))
    (htext : text ∈ outputs) (hrecord : record ∈ outputs)
    (hrenders : Record.Renders record.contents text.contents) :
    ShownBy root after outputs text record := by
  have hshown : ∀ disk path, disk.readText (.ofText path) = .ok record.contents →
      Path.checked? path ≠ none → perform disk (.render path) = (.ok text.contents, disk) :=
    fun _ _ hread hsafe => ((goesByText hread).shown _).2 ⟨hrenders, hsafe⟩
  refine ⟨htext, hrecord, hshown, fun hdistinct => ?_⟩
  have hholds := Disk.holds_of_writeAll hwrite hdistinct
  obtain ⟨place, hplace, hfile, -⟩ := hholds record hrecord
  refine ⟨(hholds text htext).readText, place, hplace, ?_⟩
  -- what lies at a place does not depend on where paths are followed from
  intro current path hleads hslash hsafe
  exact hshown _ path (Disk.readText_seenFrom hfile hleads hslash) hsafe

/-- **What showing a record comes to.** On every disk and for every path, in whatever
spelling, at which a text is read: the text that it shows is printed, exactly if it shows
one and the path is not refused, and if this fails then the text shows nothing or the path
is refused. Of all files of a run that succeeded, anywhere, the text and a record were
written that shows this text; from every directory, by every path that leads to the record
and is not refused. -/
theorem render_described {disk : Disk} {path text : String}
    (h : disk.readText (.ofText path) = .ok text) :
    GoesByText disk path text ∧
    ∀ (before after : Disk) (inputs : Inputs) (strict : Bool) (printed : String),
      perform before (.run inputs strict) = (.ok printed, after) →
        ∃ config generated previous report,
          Reads before.readText inputs config generated previous ∧
          Run.report (source before.readText inputs) (config.strict || strict) previous
            generated.files = .ok report ∧
          ∀ file ∈ report.model.files,
            ShownBy (.ofText inputs.out) after
              ((report.withGuidance generated.guidance).outputs config)
              ⟨file.path, file.content⟩
              ⟨config.layout.recordPath file.path, file.recordText config.pretty⟩ := by
  refine ⟨goesByText h, fun before after inputs strict printed hrun => ?_⟩
  obtain ⟨work, hprepare, hwrite, -⟩ := prepareRun_of_perform hrun
  obtain ⟨config, generated, previous, report, hreads, hreport, rfl⟩ :=
    prepareRun_eq_ok_iff.1 hprepare
  refine ⟨config, generated, previous, report, hreads, hreport, fun file hfile => ?_⟩
  have hgenerated := hreads.generated_report hreport file hfile
  rw [← Report.files_withGuidance report generated.guidance] at hfile
  exact shownBy_of_renders hwrite (Model.text_mem_outputs config.layout config.pretty hfile)
    (Model.record_mem_outputs config.layout config.pretty hfile)
    (hgenerated.renders config.pretty)

/-! ## A path through a parent -/

namespace Shown

def skeleton : String := "\x7b\"files\":\x7b\"a\":[\"variable\",\"v\",\"A\"]\x7d\x7d"

/-- A skeleton, and a directory beside it. -/
def disk : Disk :=
  ((Disk.fresh ["work"]).place (.ofText "s.json") (some (.text skeleton))).place
    (.ofText "sub") none

def inputs : Inputs := ⟨"s.json", "out", none⟩

/-- What the run comes to. -/
def done : Except CommandError String × Disk := perform disk (.run inputs false)

def printed : String := "1 files written (0 edits preserved, 0 new, 0 dropped)\n"

/-- The record that the run wrote. -/
def recordText : String :=
  "\x7b\"type\":\"variable\",\"id\":\"v\",\"content\":\"A\"\x7d"

theorem done_eq : done = (.ok printed, done.2) := by
  have hresult : done.1 = .ok printed := by decide +kernel
  rw [← hresult]

theorem renders_recordText : Record.Renders recordText "A" := by
  refine ⟨.editable "v" "A", ?_, .editable "v" "A", rfl⟩
  rw [recordText]
  cbv

theorem paths_handed {generated : Generated}
    (h : loadGenerated disk.readText inputs.skeleton = .ok generated) :
    generated.files.map File.path = ["a"] := by
  have hpaths : (loadGenerated disk.readText inputs.skeleton).map (fun generated =>
      generated.files.map File.path) = .ok ["a"] := by decide +kernel
  rw [h] at hpaths
  exact Except.ok.inj hpaths

/-- What is read after the run at a path, seen from a directory. -/
def readFrom (directory : Location) (path : String) : Except DiskFault String :=
  (done.2.seenFrom directory).readText (.ofText path)

/-- What showing the record at a path comes to after the run, seen from a directory. -/
def shownFrom (directory : Location) (path : String) : Except CommandError String :=
  (perform (done.2.seenFrom directory) (.render path)).1

/-- The record is read at a path, and it is refused to show it. -/
def Refused (directory : Location) (path : String) : Prop :=
  readFrom directory path = .ok recordText ∧
    shownFrom directory path = .error (.failed (.unsafePath path))

instance (directory : Location) (path : String) : Decidable (Refused directory path) :=
  inferInstanceAs (Decidable (_ ∧ _))

end Shown

/-- An absolute path shows the record from a directory beside the outputs. -/
theorem render_described_absolute :
    perform Shown.disk (.run Shown.inputs false) = (.ok Shown.printed, Shown.done.2) ∧
    Shown.readFrom ["work", "sub"] "/work/out/traces/a.traces" = .ok Shown.recordText ∧
    Shown.shownFrom ["work", "sub"] "/work/out/traces/a.traces" = .ok "A" ∧
    ∃ outputs content record,
      ShownBy (.ofText "out") Shown.done.2 outputs ⟨"a", content⟩ record := by
  have hread : Shown.readFrom ["work", "sub"] "/work/out/traces/a.traces"
      = .ok Shown.recordText := by decide +kernel
  obtain ⟨hgoes, hruns⟩ := render_described hread
  have hshown := (hgoes.shown "A").2 ⟨Shown.renders_recordText, by decide⟩
  refine ⟨Shown.done_eq, hread, congrArg Prod.fst hshown, ?_⟩
  obtain ⟨config, generated, previous, report, hreads, hreport, hfiles⟩ :=
    hruns _ _ _ _ _ Shown.done_eq
  have hpath : "a" ∈ generated.files.map File.path := by
    rw [Shown.paths_handed hreads.handed]
    exact List.mem_singleton_self "a"
  obtain ⟨file, hm, he⟩ := List.mem_map.1 ((Run.mem_paths_report hreport).2 hpath)
  exact ⟨_, file.content, _, he ▸ hfiles file hm⟩

/-- **Showing a record can be refused for its path**: a run wrote the record of a file, which
shows the file's text and is read there, but neither a path through a directory and back
nor one from that directory shows it. -/
theorem render_refused :
    perform Shown.disk (.run Shown.inputs false) = (.ok Shown.printed, Shown.done.2) ∧
    Record.Renders Shown.recordText "A" ∧
    Shown.Refused ["work"] "sub/../out/traces/a.traces" ∧
    Shown.Refused ["work", "sub"] "../out/traces/a.traces" :=
  ⟨Shown.done_eq, Shown.renders_recordText, by decide +kernel⟩

end Command

end Regeneration
