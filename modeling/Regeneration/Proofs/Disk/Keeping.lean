import Regeneration.Disk.Outputs

/-!
# What writing keeps of a disk

Following a path asks nothing of a disk but that there are directories on the way, and
where it leads is determined by the names alone. Writing never removes a directory and
never touches a file but the one it writes; the directories it creates lie on the way to
that file, where there was nothing. That is so as well when an operation goes wrong. So a
path that leads to a place leads there for good, and a file that was written stays until it
is written over.

Main statements: `locate_eq_ok`, `Keeps.locate`, `opens_ensureDirectory`, `write_eq_error`
and `writeOutput_eq_ok`.
-/

set_option autoImplicit false

namespace Regeneration

namespace DiskPath

theorem trim_prefix (isAbsolute : Bool) (pieces : List String) :
    trim isAbsolute pieces <+: pieces := by
  rw [trim]
  split
  · next h =>
      cases pieces with
      | nil => simp at h
      | cons piece rest =>
          simp only [Bool.and_eq_true, List.head?_cons, beq_iff_eq, Option.some.injEq] at h
          rw [h.2]
          exact List.prefix_append ["."] rest
  · rw [← List.reverse_suffix, List.reverse_reverse]
    exact List.dropWhile_suffix isIdle

/-- The names of the path above are the first names of a path. -/
theorem names_parent? {path parent : DiskPath} (h : path.parent? = some parent) :
    parent.isAbsolute = path.isAbsolute ∧ parent.names <+: path.names := by
  have hpath := trim_prefix path.isAbsolute path.pieces
  rw [parent?] at h
  split at h
  · cases h
  · next piece pieces htrim =>
      cases h
      have habove := trim_prefix path.isAbsolute (piece :: pieces).dropLast
      rw [htrim] at hpath
      exact ⟨rfl, ((habove.trans (List.dropLast_prefix _)).trans hpath).filter _⟩

end DiskPath

namespace Disk

/-! ## Following -/

/-- Where the names of a path lead when they can be followed. -/
def destination (current : Location) (path : DiskPath) : Location :=
  path.names.foldl step (if path.isAbsolute then [] else current)

variable {disk before middle after : Disk}

theorem follow_eq_ok {start location : Location} {names : List String}
    (h : disk.follow start names = .ok location) : location = names.foldl step start := by
  induction names generalizing start with
  | nil =>
      cases h
      rfl
  | cons name rest ih =>
      rw [follow] at h
      split at h
      · cases h
      · cases h
      · exact ih h

theorem follow_append_eq_ok {start location : Location} {names others : List String} :
    disk.follow start (names ++ others) = .ok location ↔
      ∃ base, disk.follow start names = .ok base ∧ disk.follow base others = .ok location := by
  induction names generalizing start with
  | nil => simp [follow]
  | cons name rest ih =>
      rw [List.cons_append, follow, follow]
      split
      · simp
      · simp
      · exact ih

/-- A path that leads somewhere is not empty, its names are possible names, and they can be
followed. -/
theorem locate_eq_ok_iff {path : DiskPath} {location : Location} :
    disk.locate path = .ok location ↔
      path.isEmpty = false ∧ path.hasNull = false ∧
        disk.follow (if path.isAbsolute then [] else disk.current) path.names = .ok location := by
  rw [locate]
  cases path.isEmpty <;> cases path.hasNull <;> simp

/-- **Where a path leads is determined by its names.** -/
theorem locate_eq_ok {path : DiskPath} {location : Location}
    (h : disk.locate path = .ok location) : location = destination disk.current path :=
  follow_eq_ok (locate_eq_ok_iff.1 h).2.2

/-! ## Keeping -/

/-- A disk after something was written to the target, or to nowhere: the directories are
still there, and so are the files anywhere else. -/
structure Keeps (target : Option Location) (before after : Disk) : Prop where
  current : after.current = before.current
  directories : ∀ location, before.get? location = some .directory →
    after.get? location = some .directory
  files : ∀ location contents, some location ≠ target →
    before.get? location = some (.file contents) → after.get? location = some (.file contents)

theorem Keeps.trans {target : Option Location} (h : Keeps none before middle)
    (h' : Keeps target middle after) : Keeps target before after where
  current := h'.current.trans h.current
  directories location hl := h'.directories location (h.directories location hl)
  files location contents hne hl :=
    h'.files location contents hne (h.files location contents nofun hl)

/-- **A path that leads to a place leads there for good.** -/
theorem Keeps.follow {target : Option Location} (h : Keeps target before after)
    {start location : Location} {names : List String}
    (hf : before.follow start names = .ok location) : after.follow start names = .ok location := by
  induction names generalizing start with
  | nil => exact hf
  | cons name rest ih =>
      rw [Disk.follow] at hf ⊢
      split at hf
      · cases hf
      · cases hf
      · next hd =>
          rw [h.directories start hd]
          exact ih hf

theorem Keeps.locate {target : Option Location} (h : Keeps target before after)
    {path : DiskPath} {location : Location} (hl : before.locate path = .ok location) :
    after.locate path = .ok location := by
  obtain ⟨hempty, hnull, hfollow⟩ := locate_eq_ok_iff.1 hl
  refine locate_eq_ok_iff.2 ⟨hempty, hnull, ?_⟩
  rw [h.current]
  exact h.follow hfollow

/-- Nothing but the root is at the root. -/
theorem ne_root_of_get? {location : Location} (h : disk.get? location ≠ some .directory) :
    location ≠ [] := by
  rintro rfl
  exact h rfl

/-- Putting something where there is no directory keeps everything else. -/
theorem keeps_set {location : Location} (entry : Entry)
    (h : disk.get? location ≠ some .directory) :
    Keeps (some location) disk (disk.set location entry) where
  current := rfl
  directories other ho := by
    have hne : other ≠ location := fun he => h (he ▸ ho)
    rw [get?_set disk entry (ne_root_of_get? h), if_neg hne, ho]
  files other contents hne ho := by
    have hne' : other ≠ location := fun he => hne (congrArg some he)
    rw [get?_set disk entry (ne_root_of_get? h), if_neg hne', ho]

/-! ## Creating directories -/

/-- A place on the way along a path: where some of its first names lead. -/
def OnTheWay (current : Location) (path : DiskPath) (location : Location) : Prop :=
  ∃ names, names <+: path.names ∧
    location = names.foldl step (if path.isAbsolute then [] else current)

theorem onTheWay_destination (current : Location) (path : DiskPath) :
    OnTheWay current path (destination current path) :=
  ⟨path.names, List.prefix_rfl, rfl⟩

/-- The way along the path above is part of the way. -/
theorem OnTheWay.of_parent {current location : Location} {path parent : DiskPath}
    (hp : path.parent? = some parent) (h : OnTheWay current parent location) :
    OnTheWay current path location := by
  obtain ⟨habsolute, hnames⟩ := DiskPath.names_parent? hp
  obtain ⟨names, hprefix, rfl⟩ := h
  exact ⟨names, hprefix.trans hnames, by rw [habsolute]⟩

/-- A place on the way to the directory above a path. -/
def Above (current : Location) (path : DiskPath) (location : Location) : Prop :=
  ∃ parent, path.parent? = some parent ∧ OnTheWay current parent location

/-- A disk after directories were created at some of the given places, where there was
nothing; everything else is as before. -/
structure Opens (places : Location → Prop) (before after : Disk) : Prop where
  current : after.current = before.current
  entries : ∀ location, after.get? location = before.get? location ∨
    before.get? location = none ∧ after.get? location = some .directory ∧ places location

variable {places : Location → Prop}

theorem Opens.refl (places : Location → Prop) (disk : Disk) : Opens places disk disk :=
  ⟨rfl, fun _ => .inl rfl⟩

theorem Opens.trans (h : Opens places before middle) (h' : Opens places middle after) :
    Opens places before after where
  current := h'.current.trans h.current
  entries location := by
    rcases h.entries location with he | ⟨hnone, hdirectory, hplace⟩
    · rw [← he]
      exact h'.entries location
    · rcases h'.entries location with he' | ⟨hnone', -, -⟩
      · exact .inr ⟨hnone, he'.trans hdirectory, hplace⟩
      · rw [hdirectory] at hnone'
        cases hnone'

theorem Opens.mono {others : Location → Prop} (h : Opens places before after)
    (hsub : ∀ location, places location → others location) : Opens others before after where
  current := h.current
  entries location := (h.entries location).imp_right fun ⟨hnone, hdirectory, hplace⟩ =>
    ⟨hnone, hdirectory, hsub location hplace⟩

/-- What was there stays. -/
theorem Opens.get? (h : Opens places before after) {location : Location} {entry : Entry}
    (hl : before.get? location = some entry) : after.get? location = some entry := by
  rcases h.entries location with he | ⟨hnone, -, -⟩
  · exact he.trans hl
  · rw [hl] at hnone
    cases hnone

theorem Opens.keeps (h : Opens places before after) : Keeps none before after :=
  ⟨h.current, fun _ hl => h.get? hl, fun _ _ _ hl => h.get? hl⟩

theorem opens_passed (places : Location → Prop) (disk : Disk) : Opens places disk disk.passed :=
  ⟨rfl, fun _ => .inl rfl⟩

theorem opens_createDirectory (disk : Disk) (path : DiskPath) :
    Opens (OnTheWay disk.current path) disk (disk.createDirectory path).2 := by
  rw [createDirectory]
  split
  · exact opens_passed _ disk
  · exact opens_passed _ disk
  · next location _ hl =>
      split
      · exact opens_passed _ disk
      · next hnone =>
          have hnot : disk.passed.get? location ≠ some .directory := by
            rw [get?_passed, hnone]
            exact nofun
          refine ⟨rfl, fun other => ?_⟩
          rw [get?_set disk.passed _ (ne_root_of_get? hnot)]
          by_cases ho : other = location
          · -- the new directory is where the path itself leads
            subst ho
            refine .inr ⟨hnone, if_pos rfl, ?_⟩
            rw [locate_eq_ok hl]
            exact onTheWay_destination _ path
          · exact .inl (if_neg ho)

/-- Looking for a directory creates none. -/
theorem Opens.orExisting {made : Except DiskFault Unit × Disk} (h : Opens places disk made.2)
    (path : DiskPath) : Opens places disk (orExisting path made).2 := by
  obtain ⟨result, after⟩ := made
  cases result with
  | ok => exact h
  | error fault => exact h.trans (opens_passed places after)

theorem opens_ensureLast (disk : Disk) (path : DiskPath) :
    Opens (OnTheWay disk.current path) disk (disk.ensureLast path).2 :=
  (opens_createDirectory disk path).orExisting path

theorem opens_ensureUpTo (bound : Nat) (disk : Disk) (path : DiskPath) :
    Opens (OnTheWay disk.current path) disk (ensureUpTo bound disk path).2 := by
  induction bound generalizing disk path with
  | zero => exact opens_ensureLast disk path
  | succ bound ih =>
      have hfirst := opens_createDirectory disk path
      rw [ensureUpTo]
      split
      · exact Opens.refl _ disk
      · split
        · next tried hcreate =>
            rw [hcreate] at hfirst
            split
            · exact hfirst
            · next parent hp =>
                -- the way to the directory above is part of the way
                have hparent : Opens (OnTheWay disk.current path) disk
                    (ensureUpTo bound tried parent).2 := by
                  refine hfirst.trans ((ih tried parent).mono fun location => ?_)
                  rw [hfirst.current]
                  exact OnTheWay.of_parent hp
                split
                · next h =>
                    rw [h] at hparent
                    exact hparent
                · next ready h =>
                    rw [h] at hparent
                    have hlast := opens_ensureLast ready path
                    rw [hparent.current] at hlast
                    exact hparent.trans hlast
        · exact hfirst.orExisting path

/-- **Creating a directory and those above it** touches nothing that was there. -/
theorem opens_ensureDirectory {result : Except DiskFault Unit} {path : DiskPath}
    (h : disk.ensureDirectory path = (result, after)) :
    Opens (OnTheWay disk.current path) disk after := by
  have hopens := opens_ensureUpTo (path.pieces.length + 1) disk path
  rw [← ensureDirectory, h] at hopens
  exact hopens

/-! ## Writing a file -/

theorem locateFile_eq_ok {path : DiskPath} {location : Location}
    (h : disk.locateFile path = .ok location) :
    disk.locate path = .ok location ∧ disk.get? location ≠ some .directory ∧
      path.endsInSlash = false := by
  rw [locateFile] at h
  split at h
  · cases h
  · next found hl =>
      split at h
      · cases h
      · next hd =>
          split at h
          · cases h
          · next he =>
              cases h
              exact ⟨hl, hd, Bool.eq_false_iff.2 he⟩

theorem write_eq_ok {path : DiskPath} {contents : Contents}
    (h : disk.write path contents = (.ok (), after)) :
    ∃ location, disk.locateFile path = .ok location ∧
      after = disk.passed.set location (.file contents) := by
  rw [write] at h
  split at h
  · next location _ hl =>
      cases h
      exact ⟨location, hl, rfl⟩
  · cases h
  · cases h
  · split at h <;> cases h

/-- **A write that fails** changes nothing, or what its file holds. -/
theorem write_eq_error {path : DiskPath} {contents : Contents} {fault : DiskFault}
    (h : disk.write path contents = (.error fault, after)) :
    after = disk.passed ∨ ∃ location left, disk.locateFile path = .ok location ∧
      after = disk.passed.set location (.file left) := by
  rw [write] at h
  split at h
  · cases h
  · cases h
    exact .inl rfl
  · cases h
    exact .inl rfl
  · next location _ hl =>
      split at h
      · cases h
        exact .inl rfl
      · next left _ =>
          cases h
          exact .inr ⟨location, left, hl, rfl⟩

/-- Writing a target is writing its file; a fault is reported with the path. -/
theorem writeTarget_eq {path : DiskPath} {text : String} {result : Except RunError Unit}
    (h : disk.writeTarget path text = (result, after)) :
    (result = .ok () ∧ disk.write path (.text text) = (.ok (), after)) ∨
      ∃ fault, result = .error (.disk path.text fault) ∧
        disk.write path (.text text) = (.error fault, after) := by
  rw [writeTarget] at h
  split at h
  · next fault _ hw =>
      cases h
      exact .inr ⟨fault, rfl, hw⟩
  · next hw =>
      cases h
      exact .inl ⟨rfl, hw⟩

theorem writeTarget_eq_ok {path : DiskPath} {text : String}
    (h : disk.writeTarget path text = (.ok (), after)) :
    disk.write path (.text text) = (.ok (), after) := by
  rcases writeTarget_eq h with ⟨-, hw⟩ | ⟨fault, hresult, -⟩
  · exact hw
  · cases hresult

theorem keeps_passed (disk : Disk) : Keeps none disk disk.passed :=
  ⟨rfl, fun _ h => h, fun _ _ _ h => h⟩

/-- Leaving something in the file that a path leads to keeps everything else. -/
theorem keeps_locateFile {path : DiskPath} {location : Location} (contents : Contents)
    (h : disk.locateFile path = .ok location) :
    Keeps (some location) disk (disk.passed.set location (.file contents)) :=
  (keeps_passed disk).trans (keeps_set _ (locateFile_eq_ok h).2.1)

/-- What writing an output comes to: first the directories above it are created, then the
file is written unless that failed. -/
theorem writeOutput_cases {root : DiskPath} {output : Output} {result : Except RunError Unit}
    (h : writeOutput root disk output = (result, after)) :
    ∃ ready, Opens (Above disk.current (root.join (.ofText output.path))) disk ready ∧
      (ready.writeTarget (root.join (.ofText output.path)) output.contents = (result, after) ∨
        after = ready ∧ ∃ parent fault,
          (root.join (.ofText output.path)).parent? = some parent ∧
          result = .error (.disk parent.text fault)) := by
  rw [writeOutput] at h
  split at h
  · exact ⟨disk, Opens.refl _ disk, .inl h⟩
  · next parent hp =>
      have habove : ∀ location, OnTheWay disk.current parent location →
          Above disk.current (root.join (.ofText output.path)) location :=
        fun location hw => ⟨parent, hp, hw⟩
      split at h
      · next fault _ he =>
          cases h
          exact ⟨after, (opens_ensureDirectory he).mono habove, .inr ⟨rfl, parent, fault, hp, rfl⟩⟩
      · next ready he => exact ⟨ready, (opens_ensureDirectory he).mono habove, .inl h⟩

/-- **An output that was written lies where its path leads**, and nothing else was
touched. -/
theorem writeOutput_eq_ok {root : DiskPath} {output : Output}
    (h : writeOutput root disk output = (.ok (), after)) :
    ∃ location, after.locate (root.join (.ofText output.path)) = .ok location ∧
      after.get? location = some (.file (.text output.contents)) ∧
      (root.join (.ofText output.path)).endsInSlash = false ∧
      Keeps (some location) disk after := by
  obtain ⟨ready, hopens, hwrite | ⟨_, parent, fault, _, hresult⟩⟩ := writeOutput_cases h
  · obtain ⟨location, hfile, rfl⟩ := write_eq_ok (writeTarget_eq_ok hwrite)
    obtain ⟨hlocate, hnot, hslash⟩ := locateFile_eq_ok hfile
    have hkeeps := keeps_locateFile (.text output.contents) hfile
    refine ⟨location, hkeeps.locate hlocate, ?_, hslash, hopens.keeps.trans hkeeps⟩
    rw [get?_set ready.passed _ (ne_root_of_get? hnot), if_pos rfl]
  · cases hresult

/-- Writing outputs is writing the first and then the others. -/
theorem writeEach_cons_eq_ok {root : DiskPath} {output : Output} {rest : List Output}
    (h : writeEach root disk (output :: rest) = (.ok (), after)) :
    ∃ middle, writeOutput root disk output = (.ok (), middle) ∧
      writeEach root middle rest = (.ok (), after) := by
  rw [Disk.writeEach] at h
  split at h
  · cases h
  · next middle hw => exact ⟨middle, hw, h⟩

end Disk

end Regeneration
