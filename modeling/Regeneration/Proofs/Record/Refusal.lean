import Regeneration.Proofs.Record.Agreement

/-!
# Which records are refused

A record is refused if some container in it, at any depth, has two children of one id. It
is refused by the first such container on a way through the record that comes to the
children before their container, with the container's id and the first child id that an
earlier child of it has. Equal ids in different containers are no problem.

Main statement: `refused_iff`. A child list is refused by its first repeated id
(`pushAll_eq`), and a record by the first child list that is (`error?_toSegment_eq`).
-/

set_option autoImplicit false

namespace Regeneration

namespace Outcome

/-- The problem of a computation that failed. -/
def error? {ε α : Type} : Except ε α → Option ε
  | .error problem => some problem
  | .ok _ => none

theorem error?_eq_some_iff {ε α : Type} {outcome : Except ε α} {problem : ε} :
    error? outcome = some problem ↔ outcome = .error problem := by
  cases outcome <;> simp [error?]

end Outcome

/-! ## The first repeated id -/

/-- The first id that is among the ones before it or among those seen before. -/
def firstRepeat? : List String → List String → Option String
  | _, [] => none
  | seen, id :: ids => if id ∈ seen then some id else firstRepeat? (seen ++ [id]) ids

theorem nodup_seen {seen : List String} {id : String} (hd : seen.Nodup) (hm : id ∉ seen) :
    (seen ++ [id]).Nodup := by
  rw [← List.concat_eq_append]
  exact List.Nodup.concat hm hd

/-- No id is repeated exactly if all are distinct. -/
theorem firstRepeat?_eq_none_iff {seen ids : List String} (hd : seen.Nodup) :
    firstRepeat? seen ids = none ↔ (seen ++ ids).Nodup := by
  induction ids generalizing seen with
  | nil => simp [firstRepeat?, hd]
  | cons id ids ih =>
      rw [firstRepeat?]
      split
      · next hm =>
          have hrepeated : ¬ (seen ++ id :: ids).Nodup := fun h =>
            (List.nodup_append.1 h).2.2 id hm id List.mem_cons_self rfl
          simp [hrepeated]
      · next hm =>
          rw [ih (nodup_seen hd hm), List.append_assoc, List.singleton_append]

/-- The first repeated id is one before which all are distinct and which is among them. -/
theorem firstRepeat?_eq_some_iff {seen ids : List String} (hd : seen.Nodup) {id : String} :
    firstRepeat? seen ids = some id ↔
      ∃ front back, ids = front ++ id :: back ∧ (seen ++ front).Nodup ∧ id ∈ seen ++ front := by
  induction ids generalizing seen with
  | nil => simp [firstRepeat?]
  | cons head ids ih =>
      rw [firstRepeat?]
      split
      · next hm =>
          constructor
          · intro h
            cases h
            exact ⟨[], ids, rfl, by rwa [List.append_nil], by rwa [List.append_nil]⟩
          · rintro ⟨front, back, hids, hfront, hid⟩
            -- ids before the first repeated one are distinct, so the head is not among them
            cases front with
            | nil =>
                cases hids
                rfl
            | cons next front =>
                cases hids
                exact absurd rfl ((List.nodup_append.1 hfront).2.2 head hm head List.mem_cons_self)
      · next hm =>
          rw [ih (nodup_seen hd hm)]
          constructor
          · rintro ⟨front, back, rfl, hfront, hid⟩
            exact ⟨head :: front, back, rfl, by simpa using hfront, by simpa using hid⟩
          · rintro ⟨front, back, hids, hfront, hid⟩
            cases front with
            | nil =>
                cases hids
                exact absurd (by simpa using hid) hm
            | cons next front =>
                cases hids
                exact ⟨front, back, rfl, by simpa using hfront, by simpa using hid⟩

namespace Children

/-- **A list is refused by its first repeated id.** -/
theorem pushAll_eq (parent : String) (children segments : Children) :
    pushAll parent children segments
      = match firstRepeat? children.ids (ids segments) with
        | some id => .error (.duplicateChild parent id)
        | none => .ok (children ++ segments) := by
  -- the children pushed so far are those seen before
  induction segments generalizing children with
  | nil => rw [pushAll, List.append_nil]; rfl
  | cons child rest ih =>
      have hids : ids (child :: rest) = child.id :: ids rest := rfl
      rw [pushAll, push, hids, firstRepeat?]
      simp only [contains_iff]
      by_cases hm : child.id ∈ children.ids
      · simp only [if_pos hm]
      · have hextended : ids (children ++ [child]) = children.ids ++ [child.id] := List.map_append
        simp only [if_neg hm, ih, hextended, List.append_assoc, List.singleton_append]

theorem ofList_eq (parent : String) (segments : Children) :
    ofList parent segments
      = match firstRepeat? [] (ids segments) with
        | some id => .error (.duplicateChild parent id)
        | none => .ok segments :=
  pushAll_eq parent [] segments

end Children

namespace Record

/-! ## The way through a record -/

mutual
/-- A record and all records below it, children before their container. -/
def postorder : Record → List Record
  | .literal id content => [.literal id content]
  | .editable id content => [.editable id content]
  | .composite id children => postorderAll children ++ [.composite id children]
  | .region id policy children => postorderAll children ++ [.region id policy children]
termination_by structural record => record

/-- The records of several records, one after another. -/
def postorderAll : List Record → List Record
  | [] => []
  | record :: rest => postorder record ++ postorderAll rest
termination_by structural records => records
end

theorem postorderAll_eq_flatMap (records : List Record) :
    postorderAll records = records.flatMap postorder := by
  induction records with
  | nil => rfl
  | cons record rest ih => rw [postorderAll, ih, List.flatMap_cons]

theorem postorder_eq (record : Record) :
    record.postorder = record.children.flatMap postorder ++ [record] := by
  cases record with
  | literal | editable => rfl
  | composite | region =>
      rw [postorder, postorderAll_eq_flatMap]
      rfl

/-- Both ways come to the same records. -/
theorem mem_postorder {record part : Record} :
    part ∈ record.postorder ↔ part ∈ record.preorder := by
  induction record using children_induction with
  | step record ih =>
      have hbelow : (∃ child ∈ record.children, part ∈ child.postorder)
          ↔ ∃ child ∈ record.children, part ∈ child.preorder :=
        exists_congr fun child => and_congr_right (ih child)
      rw [postorder_eq, preorder_eq, List.mem_append, List.mem_singleton, List.mem_cons,
        List.mem_flatMap, List.mem_flatMap, hbelow, or_comm]

/-! ## The first refused child list -/

/-- Why the child list of a record is refused, if it is. -/
def refusal? (record : Record) : Option SegmentError :=
  (firstRepeat? [] (record.children.map Record.id)).map (.duplicateChild record.id)

/-- A record is refused for a child of it, or else for its child list. -/
theorem error?_toSegment (record : Record) :
    Outcome.error? record.toSegment
      = (Outcome.error? (toSegments record.children)).or record.refusal? := by
  have hlist : ∀ trees, toSegments record.children = .ok trees →
      Outcome.error? (Children.ofList record.id trees) = record.refusal? := by
    intro trees ht
    -- a rebuilt child has the id of its record
    have hids : Children.ids trees = record.children.map Record.id := by
      rw [← ids_ofSegment, (toSegments_eq_ok ht fun _ _ _ => toSegment_eq_ok).1]
    rw [Children.ofList_eq, hids, refusal?]
    cases firstRepeat? [] (record.children.map Record.id) <;> rfl
  cases record with
  | literal | editable => rfl
  | composite id records | region id policy records =>
      rw [toSegment, children]
      cases ht : toSegments records with
      | error error => rfl
      | ok trees =>
          have hrefused : Outcome.error? (Children.ofList id trees) = _ := hlist trees ht
          rw [← hrefused]
          dsimp only
          cases Children.ofList id trees <;> rfl

/-- Several records are refused by the first child list in them that is. -/
theorem error?_toSegments {records : List Record}
    (each : ∀ record ∈ records,
      Outcome.error? record.toSegment = record.postorder.findSome? refusal?) :
    Outcome.error? (toSegments records) = (records.flatMap postorder).findSome? refusal? := by
  induction records with
  | nil => rfl
  | cons record rest ih =>
      have hrest := ih fun other hm => each other (List.mem_cons_of_mem record hm)
      rw [toSegments, List.flatMap_cons, List.findSome?_append, ← each record List.mem_cons_self,
        ← hrest]
      cases record.toSegment with
      | error error => rfl
      | ok tree => cases toSegments rest <;> rfl

/-- **A record is refused by the first child list in it that is.** -/
theorem error?_toSegment_eq (record : Record) :
    Outcome.error? record.toSegment = record.postorder.findSome? refusal? := by
  induction record using children_induction with
  | step record ih =>
      rw [error?_toSegment, error?_toSegments ih, postorder_eq, List.findSome?_append,
        List.findSome?_singleton]

/-! ## Refusal -/

/-- The first id of a list that repeats an earlier one. -/
def FirstRepeat (ids : List String) (id : String) : Prop :=
  ∃ front back, ids = front ++ id :: back ∧ front.Nodup ∧ id ∈ front

theorem refusal?_eq_none_iff {record : Record} :
    record.refusal? = none ↔ (record.children.map Record.id).Nodup := by
  rw [refusal?, Option.map_eq_none_iff, firstRepeat?_eq_none_iff List.nodup_nil, List.nil_append]

theorem refusal?_eq_some_iff {record : Record} {error : SegmentError} :
    record.refusal? = some error ↔
      ∃ id, FirstRepeat (record.children.map Record.id) id ∧
        error = .duplicateChild record.id id := by
  simp only [refusal?, Option.map_eq_some_iff, firstRepeat?_eq_some_iff List.nodup_nil,
    List.nil_append, FirstRepeat, @eq_comm _ error]

/-- **Exactly the inconsistent records are refused**: those in which some container has two
children of one id. The error names the first such container, where all that is below
earlier siblings comes first and children come before their container, and the first of
its child ids, in child order, that an earlier child has. -/
theorem refused_iff (record : Record) :
    ((∃ error, record.toSegment = .error error) ↔
      ∃ container ∈ record.preorder, ¬ (container.children.map Record.id).Nodup) ∧
    ∀ error, record.toSegment = .error error ↔
      ∃ earlier container later id, record.postorder = earlier ++ container :: later ∧
        (∀ other ∈ earlier, (other.children.map Record.id).Nodup) ∧
        FirstRepeat (container.children.map Record.id) id ∧
        error = .duplicateChild container.id id := by
  constructor
  · have hnone : (∃ error, record.toSegment = .error error)
        ↔ ¬ record.postorder.findSome? refusal? = none := by
      rw [← error?_toSegment_eq]
      cases record.toSegment <;> simp [Outcome.error?]
    rw [hnone, List.findSome?_eq_none_iff]
    simp only [refusal?_eq_none_iff, mem_postorder, not_forall, exists_prop]
  · intro error
    rw [← Outcome.error?_eq_some_iff, error?_toSegment_eq, List.findSome?_eq_some_iff]
    simp only [refusal?_eq_none_iff, refusal?_eq_some_iff]
    constructor
    · rintro ⟨earlier, container, later, hway, ⟨id, hrepeat, rfl⟩, hearlier⟩
      exact ⟨earlier, container, later, id, hway, hearlier, hrepeat, rfl⟩
    · rintro ⟨earlier, container, later, id, hway, hearlier, hrepeat, rfl⟩
      exact ⟨earlier, container, later, hway, ⟨id, hrepeat, rfl⟩, hearlier⟩

/-- Both the file and the region of its rows have a repeated id. The region comes first. -/
theorem refused_rows :
    (composite "file"
      [region "rows" .preserve [literal "a" "", literal "b" "", literal "a" ""],
        literal "rows" ""]).toSegment
      = .error (.duplicateChild "rows" "a") := by
  refine ((refused_iff _).2 _).2 ⟨[literal "a" "", literal "b" "", literal "a" ""], _, _, "a", rfl,
    ?_, ⟨["a", "b"], [], rfl, by decide, by decide⟩, rfl⟩
  intro other hm
  simp only [List.mem_cons, List.not_mem_nil, or_false] at hm
  rcases hm with rfl | rfl | rfl <;> exact List.nodup_nil

end Record

end Regeneration
