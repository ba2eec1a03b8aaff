import Regeneration.Segment.Basic

/-!
# The text of a tree

A leaf renders to its content and a container to the texts of its children one
after another. A synchronized segment renders its merged children in the order
they are emitted; the former region is never rendered.

Main statements: `render_composite`, `render_region` and `render_synchronized`,
the text of each container in terms of its children's texts.
-/

set_option autoImplicit false

namespace Regeneration.Segment

mutual
/-- The exact text that belongs at the segment's place. -/
def render : Segment → String
  | .literal _ content => content
  | .editable _ content => content
  | .composite _ children => String.join ((renderEach children).map Prod.snd)
  | .region ⟨_, _, children⟩ => String.join ((renderEach children).map Prod.snd)
  | .synchronized ⟨_, _, children⟩ _ order =>
    String.join ((Keyed.pick Prod.fst order (renderEach children)).map Prod.snd)
termination_by structural tree => tree

/-- The texts of several trees, each with the id of its tree. -/
def renderEach : List Segment → List (String × String)
  | [] => []
  | child :: rest => (child.id, render child) :: renderEach rest
termination_by structural trees => trees
end

@[simp] theorem renderEach_eq_map (trees : List Segment) :
    renderEach trees = trees.map fun tree => (tree.id, tree.render) := by
  induction trees with
  | nil => rfl
  | cons tree rest ih => rw [renderEach, ih, List.map_cons]

@[simp] theorem render_literal (id content : String) : render (.literal id content) = content := rfl

@[simp] theorem render_editable (id content : String) :
    render (.editable id content) = content := rfl

theorem render_composite (id : String) (children : List Segment) :
    render (.composite id children) = String.join (children.map render) := by
  simp [render, Function.comp_def]

theorem render_region (list : Region Segment) :
    render (.region list) = String.join (list.children.map render) := by
  cases list
  simp [render, Function.comp_def]

/-- The merged children's texts in emitted order. -/
theorem render_synchronized (merged : Region Segment) (former : Option (Region Segment))
    (order : List String) :
    render (.synchronized merged former order)
      = String.join ((Keyed.pick id order merged.children).map render) := by
  cases merged with
  | mk _ _ children =>
      rw [render, renderEach_eq_map]
      congr 1
      induction order with
      | nil => rfl
      | cons key order ih =>
          have hf : Keyed.find? Prod.fst key (children.map fun tree => (tree.id, tree.render))
              = (Keyed.find? id key children).map fun tree => (tree.id, tree.render) := by
            rw [Keyed.find?, List.find?_map]
            rfl
          simp only [Keyed.pick, List.filterMap_cons, hf] at ih ⊢
          cases Keyed.find? id key children <;> simp [ih]

end Regeneration.Segment
