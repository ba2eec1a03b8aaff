import Regeneration.Skeleton
import Regeneration.Run.Report
import Regeneration.Proofs.Json.Inversion
import Regeneration.Proofs.Keyed.Sorted
import Regeneration.Proofs.Merge.Nesting
import Regeneration.Proofs.Model.Files
import Regeneration.Proofs.Record.Text
import Regeneration.Proofs.Run.Loading

/-!
# Generated files

The files of a skeleton have well-formed trees, normalized paths and records that fit
what a skeleton may open. Merging keeps all of this, so every record that a run
persists is shallow enough to be read by the next run.

Main statements: `files_generated` and `Generated.merged`.
-/

set_option autoImplicit false

namespace Regeneration

open Outcome

namespace Skeleton

/-- Records that fit what a skeleton may open. -/
def AllFit (records : List (String × Record)) : Prop :=
  ∀ entry ∈ records, entry.2.toValue.Fits recordDepth

theorem allFit_filesReader {text rest : List Char} {found : List (String × Record)}
    (h : filesReader text = .ok (found, rest)) : AllFit found := by
  intro entry hm
  obtain ⟨_, _, hread⟩ := Json.mem_table h entry hm
  exact Record.fits_of_read hread

theorem allFit_build {files : List (String × Record)} (guidance : Option Json.Value)
    (h : AllFit files) : AllFit (build files guidance).records :=
  fun entry hm => h entry (Sorted.mem_of_mem_ofList hm)

/-- Nothing but the files is put where the files go. -/
theorem allFit_known {name : String} {take : Members → Json.Reader Members}
    {held after : Members} {text rest : List Char} (hknown : known name = some take)
    (hheld : ∀ files, held.files = some files → AllFit files)
    (htake : take held text = .ok (after, rest)) :
    ∀ files, after.files = some files → AllFit files := by
  rw [known.eq_def] at hknown
  split at hknown
  · cases hknown
    obtain ⟨⟨found, _⟩, hfield, htake⟩ := bind_eq_ok.1 htake
    cases htake
    rintro files rfl
    obtain ⟨_, hread⟩ := Json.field_eq_ok hfield
    exact allFit_filesReader hread
  · cases hknown
    obtain ⟨_, -, htake⟩ := bind_eq_ok.1 htake
    cases htake
    exact hheld
  · cases hknown

theorem allFit_readMembers {text rest : List Char} {skeleton : Skeleton}
    (h : readMembers text = .ok (skeleton, rest)) : AllFit skeleton.records := by
  obtain ⟨⟨members, _⟩, hfields, h⟩ := bind_eq_ok.1 h
  obtain ⟨⟨files, _⟩, hrequired, h⟩ := bind_eq_ok.1 h
  cases h
  have hnone : ∀ files, ({} : Members).files = some files → AllFit files := by
    intro files hf
    cases hf
  have hall : ∀ files, members.files = some files → AllFit files :=
    Json.fieldsFrom_induction allFit_known hnone hfields
  exact allFit_build _ (hall files (Json.required_eq_ok hrequired))

theorem allFit_readItems {text rest : List Char} {skeleton : Skeleton}
    (h : readItems text = .ok (skeleton, rest)) : AllFit skeleton.records := by
  obtain ⟨next, -, h⟩ := bind_eq_ok.1 h
  cases next with
  | stop => cases h
  | more =>
      obtain ⟨⟨files, _⟩, hfiles, h⟩ := bind_eq_ok.1 h
      have hall := allFit_filesReader hfiles
      obtain ⟨further, -, h⟩ := bind_eq_ok.1 h
      cases further with
      | stop =>
          cases h
          exact allFit_build none hall
      | more =>
          obtain ⟨⟨guidance, _⟩, -, h⟩ := bind_eq_ok.1 h
          obtain ⟨_, -, h⟩ := bind_eq_ok.1 h
          cases h
          exact allFit_build guidance hall

theorem allFit_ofText {origin text : String} {skeleton : Skeleton}
    (h : ofText origin text = .ok skeleton) : AllFit skeleton.records := by
  rw [ofText] at h
  split at h
  · cases h
  · next read hread =>
      cases h
      obtain ⟨_, hdocument⟩ := Json.readAll_eq_ok hread
      obtain ⟨_, hmembers | hitems⟩ := Json.document_eq_ok hdocument
      · exact allFit_readMembers hmembers
      · exact allFit_readItems hitems

end Skeleton

/-! ## Generated files -/

/-- A file as a skeleton hands it over: well formed, with a record that fits what a
skeleton may open, under a normalized path. -/
structure File.Generated (file : File) : Prop where
  wellFormed : file.tree.WellFormed
  fits : file.record.toValue.Fits Skeleton.recordDepth
  normalized : Path.normalize file.path = file.path

namespace Skeleton

theorem generated_of_fileOf {path : String} {record : Record} {file : File}
    (h : fileOf path record = .ok file) (hfits : record.toValue.Fits recordDepth) :
    file.Generated := by
  rw [fileOf] at h
  split at h
  · cases h
  · next tree ht =>
      obtain ⟨hrecord, hwell⟩ := Record.toSegment_eq_ok ht
      have htree := (File.make_eq_ok_iff.1 h).2
      refine ⟨htree ▸ hwell, ?_, File.normalize_of_make h⟩
      rw [File.record, htree, hrecord]
      exact hfits

/-- **The files of a skeleton** are as such files are. -/
theorem files_generated {origin text : String} {skeleton : Skeleton} {files : List File}
    (hs : ofText origin text = .ok skeleton) (hf : skeleton.files = .ok files) :
    ∀ file ∈ files, file.Generated := by
  intro file hm
  obtain ⟨entry, hentry, hfile⟩ := mem_of_mapM hf file hm
  exact generated_of_fileOf hfile (allFit_ofText hs entry hentry)

end Skeleton

namespace File.Generated

/-- A file merged with what it had before is still such a file. -/
theorem merged {file : File} (h : file.Generated) {before : Option Segment}
    (hb : ∀ old, before = some old → old.WellFormed) : (file.merged before).Generated where
  wellFormed := h.wellFormed.merge hb
  fits := by
    rw [record, File.merged, Segment.ofSegment_merge h.wellFormed hb]
    exact Record.fits_merge _ h.fits
  normalized := h.normalized

/-- The record of such a file is read back from its text. -/
theorem ofText_recordText {file : File} (h : file.Generated) (pretty : Bool) :
    Record.ofText (file.recordText pretty) = .ok file.record :=
  Record.ofText_text (h.fits.mono (by decide)) pretty

end File.Generated

end Regeneration
