import TypeGraph.Graph.Subscription

/-!
# The number of abstract types

Every step of a refinement that adds to the work left makes some abstract type concrete or retires
it. So the number of abstract types bounds how often work is added.
-/

namespace TypeGraph

theorem countP_modify_le {α : Type} {p : α → Bool} {f : α → α} (h : ∀ a, p (f a) → p a)
    (l : List α) (i : Nat) : (l.modify i f).countP p ≤ l.countP p := by
  induction l generalizing i with
  | nil => simp
  | cons a l ih =>
    cases i with
    | zero =>
      have := h a
      by_cases hf : p (f a) <;> by_cases ha : p a <;> simp_all
    | succ i =>
      have := ih i
      simp only [List.modify_succ_cons, List.countP_cons]
      omega

theorem countP_modify_lt {α : Type} {p : α → Bool} {f : α → α} {l : List α} {i : Nat} {a : α}
    (hi : l[i]? = some a) (ha : p a) (hf : ¬ p (f a)) : (l.modify i f).countP p < l.countP p := by
  induction l generalizing i with
  | nil => simp at hi
  | cons b l ih =>
    cases i with
    | zero =>
      obtain rfl : b = a := by simpa using hi
      simp [ha, hf]
    | succ i =>
      have := ih (by simpa using hi)
      simp only [List.modify_succ_cons, List.countP_cons]
      omega

namespace Graph

/-- The number of abstract types. -/
def abstractCount (g : Graph) : Nat := g.nodes.toList.countP Node.isAbstract

theorem abstractCount_update_le (g : Graph) (h : Handle) {f : Node → Node}
    (hf : ∀ n, (f n).isAbstract → n.isAbstract) :
    (g.update h f).abstractCount ≤ g.abstractCount := by
  unfold abstractCount update
  rw [Array.toList_modify]
  exact countP_modify_le hf _ _

theorem abstractCount_update_lt {g : Graph} {h : Handle} {f : Node → Node}
    (ha : (g.node h).isAbstract) (hf : ¬ (f (g.node h)).isAbstract) :
    (g.update h f).abstractCount < g.abstractCount := by
  unfold abstractCount update
  rw [Array.toList_modify]
  unfold node at ha hf
  cases hn : g.nodes[h.index]? with
  | none => rw [hn] at ha; exact absurd ha (by decide)
  | some n =>
    rw [hn] at ha hf
    exact countP_modify_lt (by simpa using hn) ha hf

theorem abstractCount_acquire_le (g : Graph) (owner target : Handle) :
    (g.acquire owner target).abstractCount ≤ g.abstractCount :=
  g.abstractCount_update_le target fun n => by split <;> exact id

theorem abstractCount_release_le (g : Graph) (owner target : Handle) :
    (g.release owner target).abstractCount ≤ g.abstractCount :=
  g.abstractCount_update_le target fun _ => id

theorem abstractCount_moveListener_le (g : Graph) (id : ListenerId) (old new : Handle) :
    (g.moveListener id old new).1.abstractCount ≤ g.abstractCount := by
  have hl : (g.unwatch id old).abstractCount ≤ g.abstractCount :=
    g.abstractCount_update_le old fun _ => fun h => h
  unfold moveListener
  simp only
  split
  · exact hl
  · refine Nat.le_trans ?_ hl
    exact abstractCount_update_le _ new fun n => by split <;> exact fun h => h

theorem abstractCount_foldl_le {α : Type} {step : Graph → α → Graph}
    (h : ∀ g a, (step g a).abstractCount ≤ g.abstractCount) (l : List α) (g : Graph) :
    (l.foldl step g).abstractCount ≤ g.abstractCount := by
  induction l generalizing g with
  | nil => exact Nat.le_refl _
  | cons a l ih => exact Nat.le_trans (ih _) (h g a)

end Graph

end TypeGraph
