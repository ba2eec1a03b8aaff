import Regeneration.Store
import Regeneration.Proofs.Keyed.Sorted

/-!
# Outputs in a store

Of the outputs put into a store one after another, the last one of a path is found, under
every spelling of the path. Outputs of distinct paths are all found.

Main statements: `get?_putOutputs` and `get?_of_distinct`.
-/

set_option autoImplicit false

namespace Regeneration

/-- The normalized path of an output. -/
def Output.normalized (output : Output) : String := Path.normalize output.path

namespace Store

theorem increasing_put {store : Store} (h : Sorted.Increasing Prod.fst store.texts)
    (path text : String) : Sorted.Increasing Prod.fst (store.put path text).texts :=
  Sorted.increasing_put h

theorem putOutputs_cons (store : Store) (output : Output) (rest : List Output) :
    store.putOutputs (output :: rest) = (store.put output.path output.contents).putOutputs rest :=
  rfl

/-- **The last output of a path is found**, and elsewhere what was there before. -/
theorem get?_putOutputs {store : Store} (h : Sorted.Increasing Prod.fst store.texts)
    (outputs : List Output) (path : String) :
    (store.putOutputs outputs).get? path
      = ((Keyed.find? Output.normalized (Path.normalize path) outputs.reverse).map
          Output.contents).or (store.get? path) := by
  induction outputs generalizing store with
  | nil => rfl
  | cons output rest ih =>
      have hfind : Keyed.find? Output.normalized (Path.normalize path) (output :: rest).reverse
          = (Keyed.find? Output.normalized (Path.normalize path) rest.reverse).or
              (Keyed.find? Output.normalized (Path.normalize path) [output]) := by
        rw [List.reverse_cons, Keyed.find?, List.find?_append]
        rfl
      rw [putOutputs_cons, ih (increasing_put h _ _), get?_put h, hfind]
      cases Keyed.find? Output.normalized (Path.normalize path) rest.reverse with
      | some later => rfl
      | none =>
          by_cases hl : Path.normalize path = Path.normalize output.path
          · simp [Keyed.find?, Output.normalized, hl]
          · simp [Keyed.find?, Output.normalized, hl, Ne.symm hl]

/-- **Outputs of distinct paths are all found.** -/
theorem get?_of_distinct {outputs : List Output} (hd : (outputs.map Output.normalized).Nodup)
    {output : Output} (hm : output ∈ outputs) :
    (Store.empty.putOutputs outputs).get? output.path = some output.contents := by
  have hd' : (outputs.reverse.map Output.normalized).Nodup := by
    rw [List.map_reverse]
    exact List.nodup_reverse.2 hd
  have hfind := Keyed.find?_of_mem hd' (List.mem_reverse.2 hm)
  have hempty : Sorted.Increasing Prod.fst Store.empty.texts := List.Pairwise.nil
  rw [Output.normalized] at hfind
  rw [get?_putOutputs hempty, hfind]
  rfl

end Store

end Regeneration
