import Regeneration.Proofs.Disk.Keeping
import Regeneration.Proofs.Model.Outputs
import Regeneration.Proofs.Path.Location

/-!
# Reading from a disk what was written there

Writing goes to normalized paths and reading to paths as they are, so the two meet
whenever a path as it is leads to the place of its normalized spelling. It does if it
is plain: relative and without backslashes. Otherwise a file that was just written is
not found.

Main statements: `Holds.of_plain` and `read_writeAll`.
-/

set_option autoImplicit false

namespace Regeneration

/-! ## Names of paths -/

namespace Path

/-- Relative paths without backslashes. -/
def Plain (path : String) : Prop := path.toList.head? ≠ some '/' ∧ '\\' ∉ path.toList

instance (path : String) : Decidable (Plain path) :=
  inferInstanceAs (Decidable (_ ∧ _))

theorem ofText_of_plain {path : String} (h : path.toList.head? ≠ some '/') :
    DiskPath.ofText path = ⟨false, (components path).map String.ofList⟩ := by
  rw [DiskPath.ofText]
  split
  · next hc =>
      rw [hc] at h
      exact absurd rfl h
  · rfl

theorem head?_dropLead (chars : List Char) : (dropLead chars).head? ≠ some '/' := by
  fun_induction dropLead chars with
  | case1 rest ih => exact ih
  | case2 rest ih => exact ih
  | case3 rest h₁ h₂ =>
      cases rest with
      | nil =>
          intro h
          cases h
      | cons c rest =>
          intro h
          cases h
          exact h₂ rest rfl

theorem head?_normalize (path : String) : (normalize path).toList.head? ≠ some '/' := by
  rw [normalize, String.toList_ofList]
  exact head?_dropLead _

/-- A normalized path is relative. -/
theorem isAbsolute_normalize (path : String) :
    (DiskPath.ofText (normalize path)).isAbsolute = false := by
  rw [ofText_of_plain (head?_normalize path)]

/-- Texts differ as their characters do. -/
theorem ofList_bne (chars others : List Char) :
    (String.ofList chars != String.ofList others) = (chars != others) := by
  rw [Bool.eq_iff_iff, bne_iff_ne, bne_iff_ne]
  exact not_congr String.ofList_inj

/-- The names of a relative path are its components that are not empty. -/
theorem names_ofText {path : String} (h : path.toList.head? ≠ some '/') :
    (DiskPath.ofText path).names
      = ((components path).filter fun component => component != []).map String.ofList := by
  rw [ofText_of_plain h, DiskPath.names, List.filter_map]
  apply congrArg (List.map String.ofList)
  apply List.filter_congr
  intro component _
  exact ofList_bne component []

/-- No parent is among the names of a path without parent components. -/
theorem parent_not_mem_names {path : String} (h : ['.', '.'] ∉ components (normalize path)) :
    ".." ∉ (DiskPath.ofText (normalize path)).names := by
  rw [names_ofText (head?_normalize path)]
  intro hm
  obtain ⟨component, hc, he⟩ := List.mem_map.1 hm
  have hdots : component = ['.', '.'] := String.ofList_injective he
  exact h (hdots ▸ (List.mem_filter.1 hc).1)

/-- What normalizing drops of a plain path leads nowhere. -/
theorem splitOn_dropLead (chars : List Char) :
    (∃ dots, (chars.splitOn '/').filter (fun component => component != [])
      = List.replicate dots ['.']
        ++ ((dropLead chars).splitOn '/').filter fun component => component != []) ∧
    (chars.splitOn '/').getLast? = ((dropLead chars).splitOn '/').getLast? := by
  have hlast : ∀ (piece rest : List Char),
      (piece :: rest.splitOn '/').getLast? = (rest.splitOn '/').getLast? := by
    intro piece rest
    exact List.getLast?_cons_of_ne_nil (List.splitOn_ne_nil '/' rest)
  have hdot : '/' ∉ ['.'] := by decide
  have hempty : '/' ∉ ([] : List Char) := List.not_mem_nil
  fun_induction dropLead chars with
  | case1 rest ih =>
      have hsplit : ('.' :: '/' :: rest).splitOn '/' = ['.'] :: rest.splitOn '/' :=
        List.splitOn_append_cons_self_of_not_mem hdot rest
      obtain ⟨⟨dots, hnames⟩, hend⟩ := ih
      refine ⟨⟨dots + 1, ?_⟩, ?_⟩
      · rw [hsplit, List.filter_cons_of_pos (by decide), hnames]
        rfl
      · rw [hsplit, hlast, hend]
  | case2 rest ih =>
      have hsplit : ('/' :: rest).splitOn '/' = [] :: rest.splitOn '/' :=
        List.splitOn_append_cons_self_of_not_mem hempty rest
      obtain ⟨⟨dots, hnames⟩, hend⟩ := ih
      refine ⟨⟨dots, ?_⟩, ?_⟩
      · rw [hsplit, List.filter_cons_of_neg (by decide), hnames]
      · rw [hsplit, hlast, hend]
  | case3 rest => exact ⟨⟨0, rfl⟩, rfl⟩

/-- A plain path has the names of its normalized spelling behind some single dots, and
ends alike. -/
theorem names_of_plain {path : String} (h : Plain path) :
    (∃ dots, (DiskPath.ofText path).names
      = List.replicate dots "." ++ (DiskPath.ofText (normalize path)).names) ∧
    (DiskPath.ofText path).endsInSlash = (DiskPath.ofText (normalize path)).endsInSlash := by
  have hchars : (normalize path).toList = dropLead path.toList := by
    rw [normalize, String.toList_ofList, normalizeChars, map_slash_of_not_mem h.2]
  obtain ⟨⟨dots, hnames⟩, hend⟩ := splitOn_dropLead path.toList
  rw [← hchars] at hnames hend
  constructor
  · refine ⟨dots, ?_⟩
    rw [names_ofText h.1, names_ofText (head?_normalize path), components, components, hnames,
      List.map_append, List.map_replicate]
  · rw [ofText_of_plain h.1, ofText_of_plain (head?_normalize path), DiskPath.endsInSlash,
      DiskPath.endsInSlash, List.getLast?_map, List.getLast?_map, components, components, hend]

end Path

namespace DiskPath

/-- Joining a relative path follows the names of both. -/
theorem names_join (root : DiskPath) {path : DiskPath} (h : path.isAbsolute = false) :
    (root.join path).names = root.names ++ path.names := by
  rw [join, if_neg (by rw [h]; exact Bool.false_ne_true), names, List.filter_append]
  congr 1
  split
  · next hlast =>
      -- what is dropped is no name
      obtain ⟨pieces, hp⟩ := List.getLast?_eq_some_iff.1 hlast
      rw [names, hp, List.dropLast_concat, List.filter_append]
      simp
  · rfl

theorem isAbsolute_join (root : DiskPath) {path : DiskPath} (h : path.isAbsolute = false) :
    (root.join path).isAbsolute = root.isAbsolute := by
  rw [join, if_neg (by rw [h]; exact Bool.false_ne_true)]

theorem hasNull_join (root : DiskPath) {path : DiskPath} (h : path.isAbsolute = false) :
    (root.join path).hasNull = (root.hasNull || path.hasNull) := by
  rw [hasNull, names_join root h, List.any_append, hasNull, hasNull]

theorem endsInSlash_join (root : DiskPath) {path : DiskPath} (h : path.isAbsolute = false)
    (hne : path.pieces ≠ []) : (root.join path).endsInSlash = path.endsInSlash := by
  rw [join, if_neg (by rw [h]; exact Bool.false_ne_true), endsInSlash, endsInSlash,
    List.getLast?_append_of_ne_nil _ hne]

/-- A path that does not end in a slash ends in a name. -/
theorem names_ne_nil {path : DiskPath} (h : path.endsInSlash = false) : path.names ≠ [] := by
  rw [endsInSlash, Option.all_eq_false] at h
  obtain ⟨piece, hlast, hp⟩ := h
  exact List.ne_nil_of_mem
    (List.mem_filter.2 ⟨List.mem_of_getLast? hlast, by rw [bne, hp]; rfl⟩)

theorem pieces_ofText_ne_nil (text : String) : (ofText text).pieces ≠ [] := by
  rw [ofText]
  split
  · exact mt List.map_eq_nil_iff.1 (List.splitOn_ne_nil '/' _)
  · exact mt List.map_eq_nil_iff.1 (List.splitOn_ne_nil '/' _)

end DiskPath

namespace Disk

/-- Names without parents among them lead down, single dots apart. -/
theorem foldl_step {names : List String} (h : ".." ∉ names) (start : Location) :
    names.foldl step start = start ++ names.filter fun name => name != "." := by
  induction names generalizing start with
  | nil => exact (List.append_nil start).symm
  | cons name rest ih =>
      simp only [List.mem_cons, not_or] at h
      rw [List.foldl_cons, ih h.2, step]
      by_cases hdot : name = "."
      · rw [if_pos hdot, List.filter_cons_of_neg (by simp [hdot])]
      · rw [if_neg hdot, if_neg (Ne.symm h.1), List.filter_cons_of_pos (by simp [hdot]),
          List.append_assoc]
        rfl

/-- **A safe path leads to its own place below a directory.** -/
theorem destination_join (current : Location) (root : DiskPath) {path : String}
    (h : ['.', '.'] ∉ Path.components (Path.normalize path)) :
    destination current (root.join (.ofText (Path.normalize path)))
      = destination current root ++ (Path.location path).map String.ofList := by
  have hrelative := Path.isAbsolute_normalize path
  have hnames : ((DiskPath.ofText (Path.normalize path)).names.filter fun name => name != ".")
      = (Path.location path).map String.ofList := by
    rw [Path.names_ofText (Path.head?_normalize path), List.filter_map, List.filter_filter,
      Path.location]
    apply congrArg (List.map String.ofList)
    apply List.filter_congr
    intro component _
    have hdot := Path.ofList_bne component ['.']
    rw [Function.comp_apply, Path.leads, Bool.and_comm, ← hdot]
  rw [destination, DiskPath.names_join root hrelative, DiskPath.isAbsolute_join root hrelative,
    List.foldl_append, foldl_step (Path.parent_not_mem_names h), hnames, destination]

/-- A file that lies where a path leads, as a file may. -/
def Holds (disk : Disk) (path : DiskPath) (text : String) : Prop :=
  ∃ location, disk.locate path = .ok location ∧
    disk.get? location = some (.file (.text text)) ∧ path.endsInSlash = false

variable {disk after : Disk} {root : DiskPath}

theorem Holds.readText {path : DiskPath} {text : String} (h : disk.Holds path text) :
    disk.readText path = .ok text := by
  obtain ⟨location, hl, hg, hs⟩ := h
  rw [Disk.readText, hl]
  simp only [hg, hs]
  rfl

/-- A file stays while outputs are written elsewhere. -/
theorem Holds.writeEach {path : DiskPath} {text : String} (hh : disk.Holds path text)
    {outputs : List Output} (h : Disk.writeEach root disk outputs = (.ok (), after))
    (hne : ∀ output ∈ outputs, destination disk.current (root.join (.ofText output.path))
      ≠ destination disk.current path) : after.Holds path text := by
  induction outputs generalizing disk with
  | nil =>
      cases h
      exact hh
  | cons output rest ih =>
      obtain ⟨middle, hw, hrest⟩ := writeEach_cons_eq_ok h
      obtain ⟨location, hl, -, -, hkeeps⟩ := writeOutput_eq_ok hw
      obtain ⟨place, hp, hg, hs⟩ := hh
      rw [List.forall_mem_cons] at hne
      have hlocation := locate_eq_ok hl
      have hplace := locate_eq_ok hp
      rw [hkeeps.current] at hlocation
      have helsewhere : some place ≠ some location := by
        intro he
        exact hne.1 (hlocation.symm.trans ((Option.some.inj he).symm.trans hplace))
      refine ih ⟨place, hkeeps.locate hp, hkeeps.files place _ helsewhere hg, hs⟩ hrest ?_
      rw [hkeeps.current]
      exact hne.2

/-- **Outputs that lead to places of their own are all there** after they were
written. -/
theorem holds_of_writeEach {outputs : List Output}
    (h : writeEach root disk outputs = (.ok (), after))
    (hd : (outputs.map fun output =>
      destination disk.current (root.join (.ofText output.path))).Nodup) :
    ∀ output ∈ outputs, after.Holds (root.join (.ofText output.path)) output.contents := by
  induction outputs generalizing disk with
  | nil => exact fun _ hm => nomatch hm
  | cons output rest ih =>
      obtain ⟨middle, hw, hothers⟩ := writeEach_cons_eq_ok h
      obtain ⟨location, hl, hg, hs, hkeeps⟩ := writeOutput_eq_ok hw
      rw [← hkeeps.current] at hd
      obtain ⟨hhead, hrest⟩ := List.nodup_cons.1 hd
      refine List.forall_mem_cons.2 ⟨?_, ih hothers hrest⟩
      refine Holds.writeEach ⟨location, hl, hg, hs⟩ hothers fun other hm he => hhead ?_
      exact List.mem_map.2 ⟨other, hm, he⟩

/-! ## Reading a path as it is -/

/-- In a directory, single dots lead nowhere. -/
theorem follow_dots {start : Location} (h : disk.get? start = some .directory) (dots : Nat)
    (names : List String) :
    disk.follow start (List.replicate dots "." ++ names) = disk.follow start names := by
  induction dots with
  | zero => rfl
  | succ dots ih =>
      rw [List.replicate_succ, List.cons_append, follow, h]
      exact ih

theorem get?_of_follow {start location : Location} {names : List String} (hne : names ≠ [])
    (h : disk.follow start names = .ok location) : disk.get? start = some .directory := by
  cases names with
  | nil => exact absurd rfl hne
  | cons name rest =>
      rw [follow] at h
      split at h
      · cases h
      · cases h
      · assumption

theorem isEmpty_of_names {path : DiskPath} (h : path.names ≠ []) : path.isEmpty = false := by
  rw [DiskPath.isEmpty, List.isEmpty_eq_false_iff.2 h, Bool.and_false]

/-- **A plain path leads where its normalized spelling does.** -/
theorem Holds.of_plain {path text : String} (hp : Path.Plain path)
    (h : disk.Holds (root.join (.ofText (Path.normalize path))) text) :
    disk.Holds (root.join (.ofText path)) text := by
  obtain ⟨location, hl, hg, hs⟩ := h
  obtain ⟨⟨dots, hnames⟩, hend⟩ := Path.names_of_plain hp
  have hnormal := Path.isAbsolute_normalize path
  have hplain : (DiskPath.ofText path).isAbsolute = false := by
    rw [Path.ofText_of_plain hp.1]
  rw [DiskPath.endsInSlash_join root hnormal (DiskPath.pieces_ofText_ne_nil _)] at hs
  have hne := DiskPath.names_ne_nil hs
  obtain ⟨-, hnull, hfollow⟩ := locate_eq_ok_iff.1 hl
  have hsame : (DiskPath.ofText path).hasNull
      = (DiskPath.ofText (Path.normalize path)).hasNull := by
    -- there is no null character in a single dot
    have hdot : (".".toList.contains '\x00') = false := by decide
    rw [DiskPath.hasNull, DiskPath.hasNull, hnames, List.any_append, List.any_replicate, hdot,
      ite_self, Bool.false_or]
  rw [DiskPath.hasNull_join root hnormal, ← hsame, ← DiskPath.hasNull_join root hplain] at hnull
  rw [DiskPath.names_join root hnormal, DiskPath.isAbsolute_join root hnormal] at hfollow
  refine ⟨location, locate_eq_ok_iff.2 ⟨isEmpty_of_names ?_, hnull, ?_⟩, hg, ?_⟩
  · simp [DiskPath.names_join root hplain, hnames, hne]
  · rw [DiskPath.names_join root hplain, DiskPath.isAbsolute_join root hplain]
    -- both are followed from where the root leads, which is a directory
    obtain ⟨base, hroot, hrest⟩ := follow_append_eq_ok.1 hfollow
    refine follow_append_eq_ok.2 ⟨base, hroot, ?_⟩
    rw [hnames, follow_dots (get?_of_follow hne hrest)]
    exact hrest
  · rw [DiskPath.endsInSlash_join root hplain (DiskPath.pieces_ofText_ne_nil _), hend, hs]

theorem read_below_of_holds {path text : String}
    (h : disk.Holds (root.join (.ofText path)) text) :
    Reading.below disk.readText root path = .ok (some text) := by
  rw [Reading.below, h.readText]

/-! ## Checked outputs -/

/-- The first output whose path is refused. -/
def firstUnsafe? (outputs : List Output) : Option Output :=
  outputs.find? fun output => (Path.checked? output.path).isNone

/-- An output under its normalized path. -/
def normalized (output : Output) : Output := { output with path := Path.normalize output.path }

/-- **Outputs are checked in order**, and the first path that is refused is reported. -/
theorem checkOutputs_eq (outputs : List Output) :
    checkOutputs outputs
      = match firstUnsafe? outputs with
        | some bad => .error (.unsafePath bad.path)
        | none => .ok (outputs.map normalized) := by
  induction outputs with
  | nil => rfl
  | cons output rest ih =>
      rw [checkOutputs] at ih
      rw [checkOutputs, List.mapM_cons, ih]
      cases hpath : Path.checked? output.path with
      | none =>
          have hbad : firstUnsafe? (output :: rest) = some output :=
            List.find?_cons_of_pos (by simp [hpath])
          rw [hbad, Path.checked, hpath]
          rfl
      | some checked =>
          have hgood : firstUnsafe? (output :: rest) = firstUnsafe? rest :=
            List.find?_cons_of_neg (by simp [hpath])
          obtain ⟨rfl, -⟩ := Path.checked?_eq_some_iff.1 hpath
          rw [hgood, Path.checked, hpath]
          cases firstUnsafe? rest <;> rfl

theorem no_parent_of_safe {outputs : List Output} (h : firstUnsafe? outputs = none) :
    ∀ output ∈ outputs, ['.', '.'] ∉ Path.components (Path.normalize output.path) := by
  intro output hm
  have hsafe := List.find?_eq_none.1 h output hm
  rw [Option.isNone_iff_eq_none] at hsafe
  obtain ⟨checked, hchecked⟩ := Option.ne_none_iff_exists'.1 hsafe
  exact (Path.checked?_eq_some_iff.1 hchecked).2.2

/-- The checked outputs are the outputs under normalized paths, none of which has a
parent component. -/
theorem checkOutputs_eq_ok {outputs checked : List Output}
    (h : checkOutputs outputs = .ok checked) :
    checked = outputs.map (fun output => { output with path := Path.normalize output.path }) ∧
      ∀ output ∈ outputs, ['.', '.'] ∉ Path.components (Path.normalize output.path) := by
  rw [checkOutputs_eq] at h
  split at h
  · cases h
  · next hgood =>
      cases h
      exact ⟨rfl, no_parent_of_safe hgood⟩

/-! ## What was written -/

/-- Outputs at distinct places that were all written below a directory lie there under their
normalized paths. -/
theorem holds_of_writeAll {outputs : List Output}
    (h : writeAll root disk outputs = (.ok (), after))
    (hd : (outputs.map fun output => Path.location output.path).Nodup) :
    ∀ output ∈ outputs,
      after.Holds (root.join (.ofText (Path.normalize output.path))) output.contents := by
  rw [writeAll] at h
  split at h
  · cases h
  · next checked hchecked =>
      obtain ⟨rfl, hparent⟩ := checkOutputs_eq_ok hchecked
      -- distinct places below the root are distinct places
      have hplaces : ((outputs.map fun output =>
          { output with path := Path.normalize output.path }).map fun output =>
            destination disk.current (root.join (.ofText output.path))).Nodup := by
        have hplace : ∀ output ∈ outputs,
            destination disk.current (root.join (.ofText (Path.normalize output.path)))
              = destination disk.current root
                ++ (Path.location output.path).map String.ofList := by
          intro output hm
          exact destination_join disk.current root (hparent output hm)
        have hinjective : Function.Injective fun names : List (List Char) =>
            destination disk.current root ++ names.map String.ofList := by
          intro names others he
          have hstrings : Function.Injective String.ofList := fun _ _ => String.ofList_injective
          exact List.map_injective_iff.2 hstrings (List.append_cancel_left he)
        have hnodup := hd.map hinjective
        simp only [List.map_map, Function.comp_def] at hnodup ⊢
        rw [List.map_congr_left hplace]
        exact hnodup
      have hholds := holds_of_writeEach h hplaces
      intro output hm
      have hfile := hholds _ (List.mem_map_of_mem hm)
      exact hfile

/-- **Reading outputs that were written.** If outputs at distinct places were all
written below a directory, each is read there under its normalized path, and under its
path as it is if that is plain. -/
theorem read_writeAll {outputs : List Output}
    (h : writeAll root disk outputs = (.ok (), after))
    (hd : (outputs.map fun output => Path.location output.path).Nodup) :
    ∀ output ∈ outputs,
      Reading.below after.readText root (Path.normalize output.path)
        = .ok (some output.contents) ∧
      (Path.Plain output.path →
        Reading.below after.readText root output.path = .ok (some output.contents)) := by
  intro output hm
  have hfile := holds_of_writeAll h hd output hm
  exact ⟨read_below_of_holds hfile, fun hp => read_below_of_holds (hfile.of_plain hp)⟩

end Disk

end Regeneration
