import Regeneration.Record.Decode
import Regeneration.Record.Encode
import Regeneration.Proofs.Json.Spelling
import Regeneration.Proofs.Outcome
import Regeneration.Proofs.Record.Tree

/-!
# Records and values

The value of a record gives the record back. In the other direction a record is never
nested deeper than the value it was taken from, whether that was written with members
or as arrays.

Main statements: `ofValue_toValue` and `fits_of_value`.
-/

set_option autoImplicit false

namespace Regeneration.Record

open Json (Value)
open Outcome

/-! ## The members of a record -/

/-- The name of a kind. -/
def Tag.name : Tag → String
  | .literal => "literal"
  | .editable => "variable"
  | .composite => "composite"
  | .region => "appendable"

/-- The kind of a record. -/
def tag : Record → Tag
  | .literal .. => .literal
  | .editable .. => .editable
  | .composite .. => .composite
  | .region .. => .region

/-- The members behind the kind. -/
def fields : Record → List (String × Value)
  | .literal id content => [("id", .string id), ("content", .string content)]
  | .editable id content => [("id", .string id), ("content", .string content)]
  | .composite id children => [("id", .string id), ("children", .array (toValues children))]
  | .region id policy children =>
    [("id", .string id), ("policy", .string policy.name),
      ("children", .array (toValues children))]

theorem toValue_eq (record : Record) :
    record.toValue = .object (("type", .string record.tag.name) :: record.fields) := by
  cases record <;> rfl

theorem named_name (tag : Tag) : Tag.named tag.name = .ok tag := by
  cases tag <;> rfl

theorem type_not_mem_fields (record : Record) : "type" ∉ record.fields.map Prod.fst := by
  cases record <;> simp [fields]

/-! ## From a record to its value and back -/

/-- The fields of a record give the record, if the children are given by theirs. -/
theorem ofMembers_fields {record : Record}
    (h : ofValues (toValues record.children) = .ok record.children) :
    ofMembers record.tag (memberParts record.fields) = .ok record := by
  cases record with
  | literal | editable => rfl
  | composite id children =>
      have hlist : ofList (.array (toValues children)) = .ok children := h
      simp only [fields, memberParts, hlist]
      rfl
  | region id policy children =>
      have hlist : ofList (.array (toValues children)) = .ok children := h
      simp only [fields, memberParts, hlist]
      cases policy <;> rfl

theorem splitTag_of_not_mem {members : List (String × Part)} (tag : Option Tag)
    (h : "type" ∉ members.map Prod.fst) : splitTag tag members = .ok (tag, members) := by
  induction members with
  | nil => rfl
  | cons member rest ih =>
      obtain ⟨name, part⟩ := member
      simp only [List.map_cons, List.mem_cons, not_or] at h
      simp only [splitTag, if_neg (Ne.symm h.1), ih h.2]
      rfl

theorem map_fst_memberParts (members : List (String × Value)) :
    (memberParts members).map Prod.fst = members.map Prod.fst := by
  induction members with
  | nil => rfl
  | cons member rest ih => rw [memberParts, List.map_cons, List.map_cons, ih]

theorem ofValues_eq_mapM (values : List Value) : ofValues values = values.mapM ofValue := by
  induction values with
  | nil => rfl
  | cons value rest ih =>
      rw [ofValues_cons, List.mapM_cons, ← ih]
      rfl

theorem ofValues_toValues {records : List Record}
    (h : ∀ record ∈ records, ofValue record.toValue = .ok record) :
    ofValues (toValues records) = .ok records := by
  induction records with
  | nil => rfl
  | cons record rest ih =>
      have hrest := ih fun other hm => h other (List.mem_cons_of_mem record hm)
      rw [toValues, ofValues_cons, h record List.mem_cons_self, hrest]
      rfl

theorem ofValue_of_children {record : Record}
    (h : ofValues (toValues record.children) = .ok record.children) :
    ofValue record.toValue = .ok record := by
  have hsplit := splitTag_of_not_mem (some record.tag)
    (map_fst_memberParts record.fields ▸ record.type_not_mem_fields)
  rw [toValue_eq, ofValue, ofObject, memberParts, splitTag, if_pos rfl]
  simp only [Tag.ofValue, named_name, bind, Except.bind, hsplit, ofMembers_fields h]

/-- **The value of a record stands for the record.** -/
theorem ofValue_toValue (record : Record) : ofValue record.toValue = .ok record := by
  induction record using record_induction with
  | literal | editable => exact ofValue_of_children rfl
  | composite _ _ ih | region _ _ _ ih => exact ofValue_of_children (ofValues_toValues ih)

/-- The members of a record's value give the record. -/
theorem ofMembers_memberParts (record : Record) :
    ofMembers record.tag (memberParts record.fields) = .ok record :=
  ofMembers_fields (ofValues_toValues fun child _ => ofValue_toValue child)

theorem numberFree_toValue (record : Record) : record.toValue.NumberFree := by
  have hlist : ∀ children : List Record, (∀ child ∈ children, child.toValue.NumberFree) →
      (Value.array (toValues children)).NumberFree := by
    intro children h
    refine .array fun item hm => ?_
    rw [toValues_eq_map] at hm
    obtain ⟨child, hc, rfl⟩ := List.mem_map.1 hm
    exact h child hc
  induction record using record_induction with
  | literal | editable =>
      refine .object ?_
      simp [Value.NumberFree.string]
  | composite _ children ih | region _ _ children ih =>
      refine .object ?_
      simp only [List.forall_mem_cons, Value.NumberFree.string, hlist children ih, true_and]
      exact fun _ hm => nomatch hm

/-! ## Nesting -/

theorem fits_literal (depth : Nat) (id content : String) :
    (toValue (.literal id content)).Fits (depth + 1) := by
  refine .object ?_
  simp [Value.Fits.string]

theorem fits_editable (depth : Nat) (id content : String) :
    (toValue (.editable id content)).Fits (depth + 1) := by
  refine .object ?_
  simp [Value.Fits.string]

/-- A record opens an object at least. -/
theorem exists_of_fits {depth : Nat} {record : Record} (h : record.toValue.Fits depth) :
    ∃ less, depth = less + 1 := by
  rw [toValue_eq] at h
  cases h
  exact ⟨_, rfl⟩

section Containers

variable {depth : Nat} {children : List Record}

theorem fits_composite_iff {id : String} :
    (toValue (.composite id children)).Fits (depth + 1)
      ↔ (Value.array (toValues children)).Fits depth := by
  constructor
  · intro h
    cases h with
    | object each => exact each ("children", .array (toValues children)) (by simp)
  · intro h
    refine .object ?_
    simp only [List.forall_mem_cons, Value.Fits.string, h, true_and]
    exact fun _ hm => nomatch hm

theorem fits_region_iff {id : String} {policy : OrderPolicy} :
    (toValue (.region id policy children)).Fits (depth + 1)
      ↔ (Value.array (toValues children)).Fits depth := by
  constructor
  · intro h
    cases h with
    | object each => exact each ("children", .array (toValues children)) (by simp)
  · intro h
    refine .object ?_
    simp only [List.forall_mem_cons, Value.Fits.string, h, true_and]
    exact fun _ hm => nomatch hm

theorem fits_toValues_iff : (Value.array (toValues children)).Fits depth
      ↔ ∃ less, depth = less + 1 ∧ ∀ child ∈ children, child.toValue.Fits less := by
  rw [toValues_eq_map]
  constructor
  · intro h
    cases h with
    | array each => exact ⟨_, rfl, fun child hc => each _ (List.mem_map_of_mem hc)⟩
  · rintro ⟨less, rfl, h⟩
    exact .array (List.forall_mem_map.2 h)

end Containers

/-- A part whose records, if it stands for any, are not nested deeper than a limit. -/
def Part.Fits (depth : Nat) (part : Part) : Prop :=
  ∀ records, part.records = .ok records → (Value.array (toValues records)).Fits depth

theorem fill_eq_ok {α : Type} {name : String} {held : Option α} {found : Except Json.Cause α}
    {content : α} (h : fill name held found = .ok (some content)) : found = .ok content := by
  cases held with
  | some => cases h
  | none =>
      cases found with
      | error => cases h
      | ok content =>
          cases h
          rfl

theorem need_eq_ok {α : Type} {name : String} {field : Option α} {content : α}
    (h : need name field = .ok content) : field = some content := by
  cases field with
  | none => cases h
  | some content =>
      cases h
      rfl

/-- Taking the fields keeps the children among what the parts stand for. -/
theorem fits_gather {depth : Nat} {tag : Tag} {members : List (String × Part)}
    {before after : Fields} (h : Fields.gather tag before members = .ok after)
    (hparts : ∀ member ∈ members, member.2.Fits depth)
    (hbefore : ∀ records, before.children = some records →
      (Value.array (toValues records)).Fits depth) :
    ∀ records, after.children = some records →
      (Value.array (toValues records)).Fits depth := by
  induction members generalizing before with
  | nil =>
      cases h
      exact hbefore
  | cons member rest ih =>
      obtain ⟨name, part⟩ := member
      have hrest := fun other hm => hparts other (List.mem_cons_of_mem _ hm)
      rw [Fields.gather] at h
      split at h
      · exact ih h hrest hbefore
      · simp only at h
        split at h
        · obtain ⟨found, -, h⟩ := bind_eq_ok.1 h
          exact ih h hrest hbefore
        · obtain ⟨found, -, h⟩ := bind_eq_ok.1 h
          exact ih h hrest hbefore
        · obtain ⟨found, -, h⟩ := bind_eq_ok.1 h
          exact ih h hrest hbefore
        · obtain ⟨found, hfill, h⟩ := bind_eq_ok.1 h
          refine ih h hrest ?_
          rintro records rfl
          -- the children are what this part stands for
          exact hparts _ List.mem_cons_self records (fill_eq_ok hfill)

/-- The record of some members, and of some items, is nested no deeper than they are. -/
theorem fits_ofMembers {depth : Nat} {tag : Tag} {members : List (String × Part)}
    {record : Record} (h : ofMembers tag members = .ok record)
    (hparts : ∀ member ∈ members, member.2.Fits depth) : record.toValue.Fits (depth + 1) := by
  obtain ⟨fields, hgather, h⟩ := bind_eq_ok.1 h
  have hchildren := fits_gather hgather hparts fun _ hr => nomatch hr
  obtain ⟨id, -, h⟩ := bind_eq_ok.1 h
  cases tag with
  | literal =>
      obtain ⟨content, -, h⟩ := bind_eq_ok.1 h
      cases h
      exact fits_literal depth id content
  | editable =>
      obtain ⟨content, -, h⟩ := bind_eq_ok.1 h
      cases h
      exact fits_editable depth id content
  | composite =>
      obtain ⟨children, hneed, h⟩ := bind_eq_ok.1 h
      cases h
      exact fits_composite_iff.2 (hchildren children (need_eq_ok hneed))
  | region =>
      obtain ⟨policy, -, h⟩ := bind_eq_ok.1 h
      obtain ⟨children, hneed, h⟩ := bind_eq_ok.1 h
      cases h
      exact fits_region_iff.2 (hchildren children (need_eq_ok hneed))

theorem fits_ofItems {depth : Nat} {tag : Tag} {items : List Part} {record : Record}
    (h : ofItems tag items = .ok record) (hparts : ∀ part ∈ items, part.Fits depth) :
    record.toValue.Fits (depth + 1) := by
  rw [ofItems.eq_def] at h
  split at h
  · obtain ⟨id, -, h⟩ := bind_eq_ok.1 h
    obtain ⟨content, -, h⟩ := bind_eq_ok.1 h
    cases h
    exact fits_literal depth id content
  · obtain ⟨id, -, h⟩ := bind_eq_ok.1 h
    obtain ⟨content, -, h⟩ := bind_eq_ok.1 h
    cases h
    exact fits_editable depth id content
  · obtain ⟨id, -, h⟩ := bind_eq_ok.1 h
    obtain ⟨children, hc, h⟩ := bind_eq_ok.1 h
    cases h
    exact fits_composite_iff.2 (hparts _ (by simp) children hc)
  · obtain ⟨id, -, h⟩ := bind_eq_ok.1 h
    obtain ⟨policy, -, h⟩ := bind_eq_ok.1 h
    obtain ⟨children, hc, h⟩ := bind_eq_ok.1 h
    cases h
    exact fits_region_iff.2 (hparts _ (by simp) children hc)
  · cases h

theorem splitTag_subset {before after : Option Tag} {members others : List (String × Part)}
    (h : splitTag before members = .ok (after, others)) : others ⊆ members := by
  induction members generalizing before after others with
  | nil =>
      cases h
      exact List.Subset.refl _
  | cons member rest ih =>
      obtain ⟨name, part⟩ := member
      simp only [splitTag] at h
      split at h
      · cases before with
        | some => cases h
        | none =>
            obtain ⟨found, -, h⟩ := bind_eq_ok.1 h
            exact List.subset_cons_of_subset _ (ih h)
      · obtain ⟨⟨tag, behind⟩, hrest, h⟩ := bind_eq_ok.1 h
        cases h
        exact List.cons_subset_cons _ (ih hrest)

theorem fits_itemParts_of {depth : Nat} {items : List Value}
    (h : ∀ item ∈ items, Part.Fits depth ⟨item, ofList item⟩) :
    ∀ part ∈ itemParts items, part.Fits depth := by
  induction items with
  | nil => exact fun _ hm => nomatch hm
  | cons item rest ih =>
      rw [List.forall_mem_cons] at h
      exact List.forall_mem_cons.2 ⟨h.1, ih h.2⟩

theorem fits_memberParts_of {depth : Nat} {members : List (String × Value)}
    (h : ∀ member ∈ members, Part.Fits depth ⟨member.2, ofList member.2⟩) :
    ∀ member ∈ memberParts members, member.2.Fits depth := by
  induction members with
  | nil => exact fun _ hm => nomatch hm
  | cons member rest ih =>
      rw [List.forall_mem_cons] at h
      exact List.forall_mem_cons.2 ⟨h.1, ih h.2⟩

theorem mem_ofValues {values : List Value} {records : List Record}
    (h : ofValues values = .ok records) :
    ∀ record ∈ records, ∃ value ∈ values, ofValue value = .ok record := by
  rw [ofValues_eq_mapM] at h
  exact mem_of_mapM h

/-- What a value stands for, as a record and as a list of records, is nested no deeper
than the value. -/
theorem fits_of_value {depth : Nat} {value : Value} (h : value.Fits depth) :
    (∀ record, ofValue value = .ok record → record.toValue.Fits depth) ∧
    (∀ records, ofList value = .ok records → (Value.array (toValues records)).Fits depth) := by
  induction h with
  | null | bool | number | string =>
      constructor
      · intro _ h
        cases h
      · intro _ h
        cases h
  | @array depth items _ ih =>
      have hparts := fits_itemParts_of fun item hm => (ih item hm).2
      constructor
      · intro record h
        rw [ofValue, ofArray.eq_def] at h
        split at h
        · cases h
        · next tag rest hitems =>
            obtain ⟨_, -, h⟩ := bind_eq_ok.1 h
            rw [hitems] at hparts
            exact fits_ofItems h fun part hp => hparts part (List.mem_cons_of_mem _ hp)
      · intro records h
        refine fits_toValues_iff.2 ⟨depth, rfl, fun record hr => ?_⟩
        obtain ⟨item, hm, hitem⟩ := mem_ofValues h record hr
        exact (ih item hm).1 record hitem
  | @object depth members _ ih =>
      have hparts := fits_memberParts_of fun member hm => (ih member hm).2
      constructor
      · intro record h
        obtain ⟨⟨tag, others⟩, hsplit, h⟩ := bind_eq_ok.1 h
        cases tag with
        | none => cases h
        | some tag => exact fits_ofMembers h fun member hm => hparts _ (splitTag_subset hsplit hm)
      · intro _ h
        cases h

theorem fits_itemParts {depth : Nat} {items : List Value}
    (h : ∀ item ∈ items, item.Fits depth) : ∀ part ∈ itemParts items, part.Fits depth :=
  fits_itemParts_of fun item hm => (fits_of_value (h item hm)).2

theorem fits_memberParts {depth : Nat} {members : List (String × Value)}
    (h : ∀ member ∈ members, member.2.Fits depth) :
    ∀ member ∈ memberParts members, member.2.Fits depth :=
  fits_memberParts_of fun member hm => (fits_of_value (h member hm)).2

end Regeneration.Record
