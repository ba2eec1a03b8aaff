import Regeneration.Proofs.Merge.Places
import Regeneration.Segment.Sample

/-!
# The content of a merge

Every leaf of the new tree keeps its place. A literal has the generator's text. An
editable leaf has the text that the former tree holds at the same place, if the
place continues one of the former tree, and the generated default otherwise. The
former regions that synchronized segments of the former tree still hold play no
part in this.

Main statement: `content_merge`. The step to the leaves is `live?_merge`, and
`merge_withoutHistory` says that removing all history from the former tree changes
nothing but history.
-/

set_option autoImplicit false

namespace Regeneration.Segment

/-! ## History plays no part -/

theorem formerChildren_withoutHistory (before : Option Segment) :
    formerChildren (before.map withoutHistory) = (formerChildren before).map withoutHistory := by
  cases before with
  | none => rfl
  | some old => cases old <;> simp [formerChildren, withoutHistory]

theorem formerList_withoutHistory (before : Option Segment) :
    formerList ((before.map withoutHistory).bind asRegion?)
      = (formerList (before.bind asRegion?)).map withoutHistory := by
  cases before with
  | none => rfl
  | some old =>
      cases old with
      | synchronized merged former order =>
          -- the emitted children are those of the merged side alone
          simp only [Option.map_some, withoutHistory, Option.bind_some, asRegion?, formerList,
            flatten, withoutHistoryEach_eq_map]
          exact Keyed.arrange_map id_withoutHistory order merged.children
      | region list => simp [withoutHistory, asRegion?, formerList]
      | literal | editable | composite => rfl

theorem get?_withoutHistory (former : Children) (id : String) :
    Children.get? (former.map withoutHistory) id = (former.get? id).map withoutHistory :=
  Keyed.find?_map id_withoutHistory id former

/-- The children's step of `merge_withoutHistory`. -/
theorem mergeEach_withoutHistory {children : List Segment} (former : Children)
    (ih : ∀ child ∈ children, ∀ before,
      (merge child (before.map withoutHistory)).withoutHistory
        = (merge child before).withoutHistory) :
    (mergeEach children (former.map withoutHistory)).map withoutHistory
      = (mergeEach children former).map withoutHistory := by
  simp only [mergeEach_eq_map, List.map_map]
  apply List.map_congr_left
  intro child hc
  simp only [Function.comp_apply, get?_withoutHistory]
  exact ih child hc _

theorem ids_withoutHistory (children : List Segment) :
    Children.ids (children.map withoutHistory) = Children.ids children :=
  ids_map id_withoutHistory children

theorem withoutHistory_conclude (id : String) (policy : OrderPolicy) (children : List Segment)
    (former : Option (Region Segment)) :
    (conclude ⟨id, policy, children⟩ former).withoutHistory
      = .synchronized ⟨id, policy, children.map withoutHistory⟩ none
          (settleOrder
            (policy.emission (Children.ids (children.map withoutHistory))
              (Children.ids ((formerList former).map withoutHistory)))
            (Children.ids (children.map withoutHistory))) := by
  simp only [conclude, synchronize, withoutHistory, withoutHistoryEach_eq_map, ids_withoutHistory]

/-- **History plays no part in a merge**: without the history of the former tree the
merge is the same up to history. -/
theorem merge_withoutHistory (new : Segment) (before : Option Segment) :
    (merge new (before.map withoutHistory)).withoutHistory = (merge new before).withoutHistory := by
  induction new using tree_induction generalizing before with
  | literal => rfl
  | editable id content =>
      cases before with
      | none => rfl
      | some old => cases old <;> rfl
  | composite id children ih =>
      simp only [merge, withoutHistory, withoutHistoryEach_eq_map, formerChildren_withoutHistory]
      rw [← Keyed.keepFirst_map id_withoutHistory, ← Keyed.keepFirst_map id_withoutHistory,
        mergeEach_withoutHistory _ ih]
  | region list ih =>
      -- a list reads of the former tree only what it emitted
      simp only [merge, withoutHistory_conclude, formerList_withoutHistory, ids_withoutHistory,
        ← Keyed.keepFirst_map id_withoutHistory, mergeEach_withoutHistory _ ih]
  | synchronized merged past order ih _ =>
      simp only [merge, withoutHistory_conclude, formerList_withoutHistory, ids_withoutHistory,
        Children.arrange, ← Keyed.keepFirst_map id_withoutHistory,
        ← Keyed.arrange_map id_withoutHistory, mergeEach_withoutHistory _ ih]

/-! ## The content law -/

/-- An editable leaf of a continuing place has the former content of that place. -/
theorem live?_merge_of_matched {new old : Segment} {ids : List String} {id content : String}
    (h : new.live? ids = some (.editable id content)) (hm : Matched new old ids) :
    ∃ formerId former, old.live? ids = some (.editable formerId former) ∧
      (merge new (some old)).live? ids = some (.editable id former) := by
  obtain ⟨former, hf, hshape⟩ := (matchedIn_iff h (some old)).1 ⟨old, rfl, hm⟩
  obtain ⟨formerId, kept, rfl⟩ := sameShape_editable hshape
  refine ⟨formerId, kept, live?_of_inheritedAt hf, ?_⟩
  rw [live?_merge, h, hf]
  rfl

/-- Any other editable leaf has the generated default. -/
theorem live?_merge_of_not_matched {new : Segment} {before : Option Segment} {ids : List String}
    {id content : String} (h : new.live? ids = some (.editable id content))
    (hm : ¬ MatchedIn new before ids) :
    (merge new before).live? ids = some (.editable id content) := by
  rw [live?_merge, h, Option.map_some, merge_editable_of_other]
  intro former hf
  rw [Bool.eq_false_iff]
  intro hshape
  exact hm ((matchedIn_iff h before).2 ⟨former, hf, hshape⟩)

/-- **What a merge holds at every live leaf of the new tree.** A literal is the new
one. An editable leaf of a continuing place has the former content of that place,
any other the generated default. Histories held by the former tree reach neither
the text nor any live place. -/
theorem content_merge (new : Segment) (before : Option Segment) :
    (∀ ids id content, new.live? ids = some (.literal id content) →
      (merge new before).live? ids = some (.literal id content)) ∧
    (∀ ids id content, new.live? ids = some (.editable id content) →
      (∀ old, before = some old → Matched new old ids →
        ∃ formerId former, old.live? ids = some (.editable formerId former) ∧
          (merge new before).live? ids = some (.editable id former)) ∧
      (¬ MatchedIn new before ids →
        (merge new before).live? ids = some (.editable id content))) ∧
    (merge new (before.map withoutHistory)).withoutHistory = (merge new before).withoutHistory ∧
    (merge new (before.map withoutHistory)).render = (merge new before).render := by
  refine ⟨?_, ?_, merge_withoutHistory new before, ?_⟩
  · intro ids id content h
    rw [live?_merge, h]
    rfl
  · intro ids id content h
    constructor
    · rintro old rfl hm
      exact live?_merge_of_matched h hm
    · intro hm
      exact live?_merge_of_not_matched h hm
  · rw [← render_withoutHistory, merge_withoutHistory, render_withoutHistory]

/-- Of two rows, the one held before keeps its edited body. The other is known to
history only and has its default. -/
theorem content_merge_rows :
    (merge Sample.twoRows (some Sample.mergedRows)).live? ["rows", "a", "body"]
      = some (.editable "body" "mine") ∧
    (merge Sample.twoRows (some Sample.mergedRows)).live? ["rows", "b", "body"]
      = some (.editable "body" "b0") := by
  obtain ⟨-, hleaf, -, -⟩ := content_merge Sample.twoRows (some Sample.mergedRows)
  obtain ⟨hmatched, -⟩ := hleaf ["rows", "a", "body"] "body" "a0" rfl
  obtain ⟨-, hdefault⟩ := hleaf ["rows", "b", "body"] "body" "b0" rfl
  constructor
  · obtain ⟨formerId, former, hformer, hmerged⟩ := hmatched Sample.mergedRows rfl (by decide)
    cases hformer
    exact hmerged
  · apply hdefault
    rw [matchedIn_some_iff]
    decide

end Regeneration.Segment
