import TypeGraph.Graph.Basic

/-!
# How single changes show in the nodes

`node_update` reads one node after a change of one node; the rest of the graph stays as it was.
-/

namespace TypeGraph.Graph

variable (g : Graph) (h k : Handle) (f : Node → Node)

@[simp] theorem size_update : (g.update h f).size = g.size := Array.size_modify

@[simp] theorem registry_update : (g.update h f).registry = g.registry := rfl

@[simp] theorem subscriptions_update : (g.update h f).subscriptions = g.subscriptions := rfl

theorem node_of_size_le {g : Graph} {h : Handle} (hb : g.size ≤ h.index) : g.node h = default := by
  unfold node
  rw [Array.getElem?_eq_none hb]
  rfl

/-- Past the arena there are no slots. -/
theorem lt_of_mem_slots {g : Graph} {h s : Handle} (hs : s ∈ (g.node h).slots) :
    h.index < g.size := by
  refine Nat.lt_of_not_le fun hb => ?_
  rw [node_of_size_le hb] at hs
  cases hs

theorem node_update :
    (g.update h f).node k = if h = k ∧ k.index < g.size then f (g.node k) else g.node k := by
  unfold node update
  simp only [Array.getElem?_modify]
  by_cases hb : k.index < g.nodes.size
  · by_cases hk : h = k
    · simp [hk, hb, size]
    · have hi : h.index ≠ k.index := fun hi => hk (by cases h; cases k; cases hi; rfl)
      simp [hk, hi]
  · simp [hb, size]

theorem node_update_self {g : Graph} {h : Handle} (hb : h.index < g.size) :
    (g.update h f).node h = f (g.node h) := by
  rw [node_update, if_pos ⟨rfl, hb⟩]

theorem node_update_of_ne {g : Graph} {h k : Handle} (hk : h ≠ k) :
    (g.update h f).node k = g.node k := by
  rw [node_update, if_neg fun hc => hk hc.1]

/-- A change that keeps a part of each node keeps that part of every node of the graph. -/
theorem node_update_proj {α : Type} (p : Node → α) (hp : ∀ n, p (f n) = p n) :
    p ((g.update h f).node k) = p (g.node k) := by
  rw [node_update]
  split
  · exact hp _
  · rfl

/-! ## Counting observers changes nothing else -/

variable (owner target : Handle)

@[simp] theorem size_acquire : (g.acquire owner target).size = g.size := size_update _ _ _

@[simp] theorem size_release : (g.release owner target).size = g.size := size_update _ _ _

@[simp] theorem slots_acquire : ((g.acquire owner target).node k).slots = (g.node k).slots :=
  node_update_proj g target k _ Node.slots fun n => by split <;> rfl

@[simp] theorem slots_release : ((g.release owner target).node k).slots = (g.node k).slots :=
  node_update_proj g target k _ Node.slots fun _ => rfl

@[simp] theorem forward_acquire : ((g.acquire owner target).node k).forward = (g.node k).forward :=
  node_update_proj g target k _ Node.forward fun n => by split <;> rfl

@[simp] theorem forward_release : ((g.release owner target).node k).forward = (g.node k).forward :=
  node_update_proj g target k _ Node.forward fun _ => rfl

@[simp] theorem isAbstract_acquire :
    ((g.acquire owner target).node k).isAbstract = (g.node k).isAbstract :=
  node_update_proj g target k _ Node.isAbstract fun n => by split <;> rfl

@[simp] theorem isAbstract_release :
    ((g.release owner target).node k).isAbstract = (g.node k).isAbstract :=
  node_update_proj g target k _ Node.isAbstract fun _ => rfl

/-! ## Following forward links -/

theorem follow_of_forward_none {g : Graph} {h : Handle} (hf : (g.node h).forward = none) :
    ∀ n, g.follow n h = h
  | 0 => rfl
  | n + 1 => by unfold follow; rw [hf]

/-- A live type stands for itself. -/
theorem resolve_of_forward_none {g : Graph} {h : Handle} (hf : (g.node h).forward = none) :
    g.resolve h = h := follow_of_forward_none hf _

end TypeGraph.Graph
