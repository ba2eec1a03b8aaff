import Regeneration.Proofs.Keyed.Arrangement

/-!
# Values under keys in the order they came

An index keeps values under keys and the keys in the order in which they came. A value put
under a key that is there takes the place of the old one; a new key goes last. Taking an
entry out leaves the others in their order. Moving some keys to the front takes their
entries out one by one and puts them into a new index, and then all that is left.

With distinct keys an index is a list of entries like any other: a new key is appended, and
moving keys to the front arranges the list.

Main statements: `put_of_not_mem` and `moveFront_eq`.
-/

set_option autoImplicit false

namespace Regeneration

/-- Values under keys, in the order in which the keys came. -/
abbrev Index (α : Type) := List (String × α)

namespace Index

variable {α : Type}

/-- The keys in order. -/
def keys (index : Index α) : List String := index.map Prod.fst

/-- The value under a key. -/
def get? (index : Index α) (key : String) : Option α :=
  (Keyed.find? Prod.fst key index).map Prod.snd

/-- Puts a value under a key, in the place of the one that is there, or last. -/
def put (key : String) (value : α) : Index α → Index α
  | [] => [(key, value)]
  | entry :: rest =>
    if entry.1 = key then (key, value) :: rest else entry :: put key value rest

/-- The entry of a key, and the index without it. -/
def take? (index : Index α) (key : String) : Option ((String × α) × Index α) :=
  (Keyed.find? Prod.fst key index).map fun entry =>
    (entry, index.eraseP fun other => other.1 == key)

/-- Puts some entries in, one after another. -/
def putAll (entries : List (String × α)) (index : Index α) : Index α :=
  entries.foldl (fun index entry => put entry.1 entry.2 index) index

/-- Moves the entries of the listed keys from one index to another in the order listed, and
then what is left. Keys without an entry are passed over. -/
def moveFront : List String → Index α → Index α → Index α
  | [], index, moved => putAll index moved
  | key :: order, index, moved =>
    match index.take? key with
    | some (entry, rest) => moveFront order rest (put entry.1 entry.2 moved)
    | none => moveFront order index moved

/-- A new key goes last. -/
theorem put_of_not_mem {key : String} {index : Index α} (h : key ∉ keys index) (value : α) :
    put key value index = index ++ [(key, value)] := by
  induction index with
  | nil => rfl
  | cons entry rest ih =>
      simp only [keys, List.map_cons, List.mem_cons, not_or] at h
      rw [put, if_neg (Ne.symm h.1), ih h.2, List.cons_append]

theorem putAll_of_nodup {entries : List (String × α)} {index : Index α}
    (hd : (keys (index ++ entries)).Nodup) : putAll entries index = index ++ entries := by
  induction entries generalizing index with
  | nil => exact (List.append_nil index).symm
  | cons entry rest ih =>
      have hkeys : (keys index ++ entry.1 :: keys rest).Nodup := by
        rw [keys, List.map_append] at hd
        exact hd
      have hfree : entry.1 ∉ keys index := fun hm =>
        (List.nodup_append.1 hkeys).2.2 _ hm _ List.mem_cons_self rfl
      have hput : putAll (entry :: rest) index = putAll rest (put entry.1 entry.2 index) := rfl
      rw [hput, put_of_not_mem hfree, ih (by simpa using hd), List.append_assoc,
        List.singleton_append]

/-- **Moving keys to the front arranges the entries.** -/
theorem moveFront_eq (order : List String) {index moved : Index α}
    (hd : (keys (moved ++ index)).Nodup) :
    moveFront order index moved = moved ++ Keyed.arrange Prod.fst order index := by
  induction order generalizing index moved with
  | nil => exact putAll_of_nodup hd
  | cons key order ih =>
      rw [moveFront, take?, Keyed.arrange]
      cases hf : Keyed.find? Prod.fst key index with
      | none => exact ih hd
      | some entry =>
          -- the entry moves from one index to the other, so the keys are those they were
          have hsplit := (Keyed.perm_cons_eraseP hf).append_left moved
          have hnodup : (keys (moved ++ entry ::
              index.eraseP fun other => other.1 == key)).Nodup :=
            ((hsplit.map Prod.fst).nodup_iff).1 hd
          have hfree : entry.1 ∉ keys moved := by
            intro hm
            rw [keys, List.map_append, List.map_cons] at hnodup
            exact (List.nodup_append.1 hnodup).2.2 _ hm _ List.mem_cons_self rfl
          simp only [Option.map_some]
          rw [put_of_not_mem hfree, ih (by simpa using hnodup), List.append_assoc,
            List.singleton_append]

end Index

end Regeneration
