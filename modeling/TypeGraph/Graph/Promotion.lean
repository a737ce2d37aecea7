import TypeGraph.Graph.Measure
import TypeGraph.Traversal

/-!
# Promotion

A type that no longer reaches a placeholder is concrete. Promotion looks at every abstract type
that the start reaches. If one of them is a placeholder, or retired and so still in the middle of
its refinement, nothing happens: a later step will try again. Otherwise all of them become
concrete, and their observers are left to be told.
-/

namespace TypeGraph.Graph

/-- The start and what it reaches through abstract types, in the order of the visit. -/
def abstractReach (g : Graph) (start : Handle) : List Handle :=
  reachFrom g.size (fun h => if (g.node h).isAbstract then (g.node h).slots else []) [start]

/-- The node keeps what reaches it from being concrete. -/
def blocks (g : Graph) (h : Handle) : Bool := (g.node h).isPlaceholder || (g.node h).isRetired

/-- The types that become concrete with the start: none if the start reaches a placeholder. -/
def promotable (g : Graph) (start : Handle) : List Handle :=
  let seen := g.abstractReach start
  if seen.any g.blocks then [] else seen.filter fun h => (g.node h).isAbstract

/-- Makes a type concrete and its registration final, and forgets its observers. -/
def concretize (g : Graph) (h : Handle) : Graph :=
  let g := g.update h fun n => { n with isAbstract := false, owners := [], watchers := [] }
  match g.registry.promote h with
  | .ok r => { g with registry := r }
  | .error _ => g

/-- Makes all types of a group concrete. -/
def concretizeAll (g : Graph) (group : List Handle) : Graph := group.foldl concretize g

theorem abstractCount_concretize (g : Graph) (h : Handle) :
    (g.concretize h).abstractCount =
      (g.update h fun n => { n with isAbstract := false, owners := [], watchers := [] }).abstractCount := by
  unfold concretize
  simp only
  split <;> rfl

theorem abstractCount_concretize_le (g : Graph) (h : Handle) :
    (g.concretize h).abstractCount ≤ g.abstractCount := by
  rw [abstractCount_concretize]
  exact g.abstractCount_update_le h fun _ h => by simp at h

theorem abstractCount_concretizeAll_lt {g : Graph} {h : Handle} {group : List Handle}
    (ha : (g.node h).isAbstract) :
    (g.concretizeAll (h :: group)).abstractCount < g.abstractCount := by
  refine Nat.lt_of_le_of_lt (abstractCount_foldl_le abstractCount_concretize_le group _) ?_
  rw [abstractCount_concretize]
  exact abstractCount_update_lt ha (by simp)

theorem isAbstract_of_mem_promotable {g : Graph} {start h : Handle} (hm : h ∈ g.promotable start) :
    (g.node h).isAbstract := by
  unfold promotable at hm
  simp only at hm
  split at hm
  · cases hm
  · exact (List.mem_filter.1 hm).2

/-- Promoting a type that reaches no placeholder makes fewer types abstract. -/
theorem abstractCount_promotable_lt {g : Graph} {start : Handle} (h : g.promotable start ≠ []) :
    (g.concretizeAll (g.promotable start)).abstractCount < g.abstractCount := by
  cases hp : g.promotable start with
  | nil => exact absurd hp h
  | cons a l =>
    exact abstractCount_concretizeAll_lt (isAbstract_of_mem_promotable (hp ▸ List.mem_cons_self))

end TypeGraph.Graph
