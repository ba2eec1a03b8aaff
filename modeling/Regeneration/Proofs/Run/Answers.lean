import Regeneration.Proofs.Run.Asking
import Regeneration.Proofs.Run.Specification

/-!
# What the run before answers

The run before is asked for trees, which it loads when it has to, and for trees that were
loaded already, which it only looks up. Paths come in any spelling. For each path there are
three states: nothing is known of it, because it was not asked for or could not be loaded;
it is known to have no record; or its tree is held. What is known of a path is what loading
it would give, so that nobody can tell from an answer whether something was loaded for it.

The invariant is `Faithful`. What a list of questions leaves known is `held?_afterQuestions`,
and a failed load leaves nothing, so that a question that failed might as well not have been
asked.

Main statement: `cache_invisible`.
-/

set_option autoImplicit false

namespace Regeneration.Previous

/-! ## Records that cannot be used -/

/-- Why a record cannot be used. Every error names the place of the record. -/
inductive Unusable (read : Source) (place : String) : RunError → Prop where
  | disk {fault : DiskFault} (failed : read place = .error fault) :
      Unusable read place (.disk place fault)
  | malformed {text : String} {cause : Json.Error} (found : read place = .ok (some text))
      (refused : Record.ofText text = .error cause) : Unusable read place (.malformed place cause)
  | invalidTree {text : String} {record : Record} {cause : SegmentError}
      (found : read place = .ok (some text)) (reads : Record.ofText text = .ok record)
      (refused : record.toSegment = .error cause) :
      Unusable read place (.invalidTree place cause)
  | unsafePath {text : String} {record : Record} {tree : Segment}
      (found : read place = .ok (some text)) (reads : Record.ofText text = .ok record)
      (rebuilt : record.toSegment = .ok tree) (refused : Path.checked? place = none) :
      Unusable read place (.unsafePath place)

theorem unusable_of_ofRecordText {read : Source} {place text : String} {error : RunError}
    (found : read place = .ok (some text)) (h : File.ofRecordText place text = .error error) :
    Unusable read place error := by
  rw [File.ofRecordText] at h
  split at h
  · next cause refused =>
      cases h
      exact .malformed found refused
  · next record reads =>
      split at h
      · next cause refused =>
          cases h
          exact .invalidTree found reads refused
      · next tree rebuilt =>
          rw [File.make, Path.checked] at h
          cases hplace : Path.checked? place with
          | none =>
              rw [hplace] at h
              cases h
              exact .unsafePath found reads rebuilt hplace
          | some checked =>
              rw [hplace] at h
              cases h

theorem loadRecord_eq_error_iff {read : Source} {place : String} {error : RunError} :
    loadRecord read place = .error error ↔ Unusable read place error := by
  rw [loadRecord, readText]
  constructor
  · intro h
    cases hread : read place with
    | error fault =>
        rw [hread] at h
        cases h
        exact .disk hread
    | ok found =>
        cases found with
        | none =>
            rw [hread] at h
            cases h
        | some text =>
            simp only [hread] at h
            split at h
            · next problem hproblem =>
                cases h
                exact unusable_of_ofRecordText hread hproblem
            · cases h
  · intro h
    cases h with
    | disk failed => rw [failed]
    | malformed found refused => simp only [found, File.ofRecordText, refused]
    | invalidTree found reads refused => simp only [found, File.ofRecordText, reads, refused]
    | unsafePath found reads rebuilt refused =>
        simp only [found, File.ofRecordText, reads, rebuilt, File.make, Path.checked, refused]

/-! ## Questions and answers -/

/-- What the run before can be asked for: the tree of a path, or only what is held for it. -/
inductive Question where
  | tree (path : String)
  | cached (path : String)

/-- What it answers. -/
inductive Answer where
  | tree (result : Except RunError (Option Segment))
  | cached (found : Option Segment)

/-- The answer to a question. -/
def answer (read : Source) (previous : Previous) : Question → Answer
  | .tree path => .tree ((oldTree read previous path).map Prod.fst)
  | .cached path => .cached (previous.cached path)

/-- What is known after a question. Looking up what is held loads nothing. -/
def afterQuestion (read : Source) (previous : Previous) : Question → Previous
  | .tree path => previous.afterAsk read path
  | .cached _ => previous

/-- What is known after some questions, one after another. -/
def afterQuestions (read : Source) (previous : Previous) (questions : List Question) : Previous :=
  questions.foldl (afterQuestion read) previous

/-- The answers to some questions, one after another. -/
def answers (read : Source) : Previous → List Question → List Answer
  | _, [] => []
  | previous, question :: rest =>
    answer read previous question :: answers read (afterQuestion read previous question) rest

theorem length_answers (read : Source) (previous : Previous) (questions : List Question) :
    (answers read previous questions).length = questions.length := by
  induction questions generalizing previous with
  | nil => rfl
  | cons question rest ih => rw [answers, List.length_cons, List.length_cons, ih]

theorem answers_append (read : Source) (previous : Previous) (front back : List Question) :
    answers read previous (front ++ back)
      = answers read previous front
        ++ answers read (previous.afterQuestions read front) back := by
  induction front generalizing previous with
  | nil => rfl
  | cons question rest ih => rw [List.cons_append, answers, answers, ih, List.cons_append]; rfl

/-- A question is answered from what the questions before it left known. -/
theorem getElem?_answers (read : Source) (previous : Previous) (questions : List Question)
    (i : Nat) :
    (answers read previous questions)[i]?
      = questions[i]?.map (answer read (previous.afterQuestions read (questions.take i))) := by
  induction questions generalizing previous i with
  | nil => rfl
  | cons question rest ih =>
      cases i with
      | zero => rfl
      | succ i => exact ih (previous.afterQuestion read question) i

/-! ## What is known -/

/-- Spellings of one path find the same. -/
theorem held?_congr {path other : String} (previous : Previous)
    (h : Path.normalize path = Path.normalize other) :
    previous.held? path = previous.held? other := by
  rw [held?, held?, h]

theorem recordPath_congr {path other : String} (layout : Layout)
    (h : Path.normalize path = Path.normalize other) :
    layout.recordPath path = layout.recordPath other := by
  rw [← layout.recordPath_normalize, h, layout.recordPath_normalize]

section Known

variable {read : Source} {previous : Previous}

@[simp] theorem layout_afterQuestion (question : Question) :
    (previous.afterQuestion read question).layout = previous.layout := by
  cases question with
  | tree path => exact layout_afterAsk read previous path
  | cached path => rfl

theorem layout_afterQuestions (questions : List Question) :
    (previous.afterQuestions read questions).layout = previous.layout := by
  induction questions generalizing previous with
  | nil => rfl
  | cons question rest ih => exact ih.trans (layout_afterQuestion question)

theorem Faithful.afterQuestion (h : Faithful read previous) (question : Question) :
    Faithful read (previous.afterQuestion read question) := by
  cases question with
  | tree path => exact h.afterAsk path
  | cached path => exact h

theorem Faithful.afterQuestions (h : Faithful read previous) (questions : List Question) :
    Faithful read (previous.afterQuestions read questions) := by
  induction questions generalizing previous with
  | nil => exact h
  | cons question rest ih => exact ih (h.afterQuestion question)

/-- After a path was asked for, what is known of it is what loading gives. -/
theorem held?_afterAsk_self (h : Faithful read previous) (path : String) (found : Option Segment) :
    (previous.afterAsk read path).held? path = some found ↔
      loadRecord read (previous.layout.recordPath path) = .ok found := by
  cases hheld : previous.held? path with
  | some tree =>
      -- nothing was loaded, and loading would give what is held
      rw [afterAsk, oldTree_held read hheld, h path tree hheld]
      simp [hheld]
  | none =>
      cases hload : loadRecord read (previous.layout.recordPath path) with
      | ok tree =>
          rw [afterAsk, oldTree_fresh hheld hload, held?_keep, if_pos rfl]
          simp
      | error error =>
          rw [h.afterAsk_of_error hload]
          simp [hheld]

/-- Nothing else becomes known. -/
theorem held?_afterAsk_of_ne (read : Source) (previous : Previous) {asked path : String}
    (hn : Path.normalize asked ≠ Path.normalize path) :
    (previous.afterAsk read asked).held? path = previous.held? path := by
  rcases afterAsk_cases read previous asked with hafter | ⟨tree, -, hafter⟩
  · rw [hafter]
  · rw [hafter, held?_keep, if_neg (Ne.symm hn)]

theorem held?_afterQuestion (h : Faithful read previous) (question : Question) (path : String)
    (found : Option Segment) :
    (previous.afterQuestion read question).held? path = some found ↔
      previous.held? path = some found ∨
        (∃ asked, .tree asked = question ∧ Path.normalize asked = Path.normalize path) ∧
          loadRecord read (previous.layout.recordPath path) = .ok found := by
  cases question with
  | cached other => simp [afterQuestion]
  | tree asked =>
      simp only [Question.tree.injEq, exists_eq_left, afterQuestion]
      by_cases hn : Path.normalize asked = Path.normalize path
      · rw [← held?_congr previous hn, ← held?_congr _ hn, ← recordPath_congr _ hn,
          held?_afterAsk_self h]
        constructor
        · intro hload
          exact .inr ⟨hn, hload⟩
        · rintro (hheld | ⟨-, hload⟩)
          · exact h asked found hheld
          · exact hload
      · rw [held?_afterAsk_of_ne read previous hn]
        simp [hn]

/-- **What is known after some questions** is what loading gives for the paths asked for. -/
theorem held?_afterQuestions (h : Faithful read previous) (questions : List Question)
    (path : String) (found : Option Segment) :
    (previous.afterQuestions read questions).held? path = some found ↔
      previous.held? path = some found ∨
        (∃ asked, .tree asked ∈ questions ∧ Path.normalize asked = Path.normalize path) ∧
          loadRecord read (previous.layout.recordPath path) = .ok found := by
  induction questions generalizing previous with
  | nil => simp [afterQuestions]
  | cons question rest ih =>
      -- the other questions start from what the first one made known
      have hrest := ih (h.afterQuestion question)
      rw [layout_afterQuestion, held?_afterQuestion h] at hrest
      refine hrest.trans ?_
      simp only [List.mem_cons, or_and_right, exists_or, or_assoc]

end Known

/-! ## What is answered -/

section Answers

variable {read : Source} {layout : Layout} {previous : Previous}

/-- Asking for a tree answers what loading its record gives. -/
theorem answer_tree (h : Faithful read previous) (path : String) :
    answer read previous (.tree path)
      = .tree (loadRecord read (previous.layout.recordPath path)) := by
  rw [answer, h.oldTree_eq]
  cases loadRecord read (previous.layout.recordPath path) <;> rfl

theorem getElem?_answers_tree (h : ofSource read layout = .ok previous)
    {questions : List Question} {i : Nat} {path : String} (hi : questions[i]? = some (.tree path)) :
    (answers read previous questions)[i]?
      = some (.tree (loadRecord read (layout.recordPath path))) := by
  have hafter := (faithful_ofSource h).afterQuestions (questions.take i)
  rw [getElem?_answers, hi, Option.map_some, answer_tree hafter, layout_afterQuestions,
    (ofSource_eq_ok h).1]

/-- Looking up finds the tree that loading gives, if the path was asked for. -/
theorem cached_afterQuestions (h : ofSource read layout = .ok previous)
    (questions : List Question) (path : String) (tree : Segment) :
    (previous.afterQuestions read questions).cached path = some tree ↔
      (∃ asked, .tree asked ∈ questions ∧ Path.normalize asked = Path.normalize path) ∧
        loadRecord read (layout.recordPath path) = .ok (some tree) := by
  have hheld := held?_afterQuestions (faithful_ofSource h) questions path (some tree)
  obtain ⟨hlayout, hnothing⟩ := ofSource_eq_ok h
  rw [hnothing, hlayout] at hheld
  rw [cached]
  cases hknown : (previous.afterQuestions read questions).held? path with
  | none => simpa [hknown] using hheld
  | some found => simpa [hknown] using hheld

/-- Some question before the given one was for the tree of the path, in any spelling, and it
was given the result. -/
def AnsweredBefore (questions : List Question) (given : List Answer) (j : Nat) (path : String)
    (result : Except RunError (Option Segment)) : Prop :=
  ∃ i asked, i < j ∧ questions[i]? = some (.tree asked) ∧
    Path.normalize asked = Path.normalize path ∧ given[i]? = some (.tree result)

theorem answeredBefore_iff (h : ofSource read layout = .ok previous) {questions : List Question}
    {j : Nat} {path : String} {result : Except RunError (Option Segment)} :
    AnsweredBefore questions (answers read previous questions) j path result ↔
      (∃ asked, .tree asked ∈ questions.take j ∧ Path.normalize asked = Path.normalize path) ∧
        loadRecord read (layout.recordPath path) = result := by
  constructor
  · rintro ⟨i, asked, hij, hi, hn, hgiven⟩
    rw [getElem?_answers_tree h hi, recordPath_congr layout hn, Option.some.injEq,
      Answer.tree.injEq] at hgiven
    have hmem : .tree asked ∈ questions.take j := by
      rw [List.mem_iff_getElem?]
      exact ⟨i, by rw [List.getElem?_take_of_lt hij, hi]⟩
    exact ⟨⟨asked, hmem, hn⟩, hgiven⟩
  · rintro ⟨⟨asked, hmem, hn⟩, rfl⟩
    obtain ⟨i, hi⟩ := List.mem_iff_getElem?.1 hmem
    rw [List.getElem?_take] at hi
    split at hi
    · next hij =>
        refine ⟨i, asked, hij, hi, hn, ?_⟩
        rw [getElem?_answers_tree h hi, recordPath_congr layout hn]
    · cases hi

/-- **Looking up** finds the tree that was the answer before, and nothing after another
answer. -/
theorem getElem?_answers_cached (h : ofSource read layout = .ok previous)
    {questions : List Question} {j : Nat} {path : String}
    (hj : questions[j]? = some (.cached path)) :
    ∃ found, (answers read previous questions)[j]? = some (.cached found) ∧
      (∀ tree, found = some tree ↔
        AnsweredBefore questions (answers read previous questions) j path (.ok (some tree))) ∧
      ∀ result, AnsweredBefore questions (answers read previous questions) j path result →
        (∀ tree, result ≠ .ok (some tree)) → found = none := by
  have hfound : ∀ tree,
      (previous.afterQuestions read (questions.take j)).cached path = some tree ↔
        AnsweredBefore questions (answers read previous questions) j path (.ok (some tree)) := by
    intro tree
    rw [cached_afterQuestions h, answeredBefore_iff h]
  refine ⟨_, by rw [getElem?_answers, hj, Option.map_some, answer], hfound, ?_⟩
  -- every answer for the path is what loading gives, so a tree found would be the result
  intro result hbefore hno
  rw [Option.eq_none_iff_forall_ne_some]
  intro tree hsome
  have hresult := ((answeredBefore_iff h).1 hbefore).2
  have htree := ((answeredBefore_iff h).1 ((hfound tree).1 hsome)).2
  exact hno tree (hresult.symm.trans htree)

/-- A question whose record cannot be used might as well not be asked. -/
theorem eraseIdx_answers (h : Faithful read previous) (front back : List Question) {path : String}
    {error : RunError}
    (hload : loadRecord read (previous.layout.recordPath path) = .error error) :
    (answers read previous (front ++ .tree path :: back)).eraseIdx front.length
      = answers read previous (front ++ back) := by
  -- a failed load leaves nothing known, so the later questions start from the same
  have hsame : (previous.afterQuestions read front).afterQuestion read (.tree path)
      = previous.afterQuestions read front := by
    apply (h.afterQuestions front).afterAsk_of_error
    rw [layout_afterQuestions]
    exact hload
  have hlength := length_answers read previous front
  rw [answers_append, answers_append, answers, hsame, List.eraseIdx_append_of_length_le hlength.le,
    hlength, Nat.sub_self, List.eraseIdx_cons_zero]

/-- **What was loaded before cannot be told from the answers.** Whatever is asked of a run
before, asking for a tree answers what loading its record gives: the tree, that there is
none, or the error, which names the place of the record. Looking up finds a tree exactly if
the same path, in some spelling, was asked for before and this tree was the answer; after any
other answer it finds none. A question that fails changes no other answer. -/
theorem cache_invisible (h : ofSource read layout = .ok previous) (questions : List Question) :
    let given := answers read previous questions
    given.length = questions.length ∧
    (∀ (i : Nat) path, questions[i]? = some (.tree path) →
      given[i]? = some (.tree (loadRecord read (layout.recordPath (Path.normalize path))))) ∧
    (∀ path error, loadRecord read (layout.recordPath path) = .error error ↔
      Unusable read (layout.recordPath path) error) ∧
    (∀ (j : Nat) path, questions[j]? = some (.cached path) →
      ∃ found, given[j]? = some (.cached found) ∧
        (∀ tree, found = some tree ↔
          AnsweredBefore questions given j path (.ok (some tree))) ∧
        ∀ result, AnsweredBefore questions given j path result →
          (∀ tree, result ≠ .ok (some tree)) → found = none) ∧
    ∀ front path back error, questions = front ++ .tree path :: back →
      loadRecord read (layout.recordPath path) = .error error →
      given.eraseIdx front.length = answers read previous (front ++ back) := by
  intro given
  refine ⟨length_answers read previous questions, ?_, fun _ _ => loadRecord_eq_error_iff,
    fun _ _ => getElem?_answers_cached h, ?_⟩
  · intro i path hi
    rw [layout.recordPath_normalize]
    exact getElem?_answers_tree h hi
  · rintro front path back error rfl hload
    apply eraseIdx_answers (faithful_ofSource h) front back
    rw [(ofSource_eq_ok h).1]
    exact hload

open Report.Mixed in
/-- A tree that can be loaded and a record that cannot be read: looking up finds the tree
once it was asked for, in another spelling, and the question that fails changes nothing. -/
theorem cache_invisible_mixed :
    ofSource source .standard = .ok opened ∧
    let given := answers source opened
      [.cached "a.txt", .tree ".\\a.txt", .tree "c.txt", .cached "/a.txt"]
    given[1]? = some (.tree (.ok (some (.editable "x" "mine")))) ∧
    given[3]? = some (.cached (some (.editable "x" "mine"))) ∧
    Unusable source "traces/c.txt.traces" (.disk "traces/c.txt.traces" .isDirectory) ∧
    given.eraseIdx 2
      = answers source opened [.cached "a.txt", .tree ".\\a.txt", .cached "/a.txt"] := by
  refine ⟨ofSource_source, ?_⟩
  intro given
  obtain ⟨-, htree, hunusable, hcached, herased⟩ := cache_invisible ofSource_source
    [.cached "a.txt", .tree ".\\a.txt", .tree "c.txt", .cached "/a.txt"]
  have hload : loadRecord source (Layout.standard.recordPath (Path.normalize ".\\a.txt"))
      = .ok (some (.editable "x" "mine")) := loadRecord_source
  have hfail : loadRecord source (Layout.standard.recordPath "c.txt")
      = .error (.disk "traces/c.txt.traces" .isDirectory) := rfl
  have hasked := htree 1 ".\\a.txt" rfl
  rw [hload] at hasked
  obtain ⟨found, hlooked, hfound, -⟩ := hcached 3 "/a.txt" rfl
  have hbefore := (hfound (.editable "x" "mine")).2
    ⟨1, ".\\a.txt", by decide, rfl, by decide, hasked⟩
  rw [hbefore] at hlooked
  exact ⟨hasked, hlooked, (hunusable "c.txt" _).1 hfail,
    herased [.cached "a.txt", .tree ".\\a.txt"] "c.txt" [.cached "/a.txt"] _ rfl hfail⟩

end Answers

end Regeneration.Previous
