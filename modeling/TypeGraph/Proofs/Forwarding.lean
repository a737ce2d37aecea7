import TypeGraph.Proofs.Changes

/-!
# Forward links end

A path of forward links passes only retired types, so it ends within as many links as there are
retired types. Retiring one more type makes each path longer by one link at most. So `resolve`
always gives a live type, and retiring `old` in favour of `new` changes it on what stood for `old`.
-/

namespace TypeGraph.Graph

/-- Every path of forward links ends in a live type, and is no longer than the number of retired
types. -/
def ForwardsEnd (g : Graph) : Prop :=
  ∀ h, (g.node (g.follow (g.size - g.liveCount) h)).forward = none

variable {g g' : Graph} {h old new : Handle}

theorem follow_of_forward_some {next : Handle} (hf : (g.node h).forward = some next) (n : Nat) :
    g.follow (n + 1) h = g.follow n next := by
  rw [follow, hf]

/-- More links change nothing once the path has ended. -/
theorem follow_of_le {n m : Nat} (hn : (g.node (g.follow n h)).forward = none) (hm : n ≤ m) :
    g.follow m h = g.follow n h := by
  induction n generalizing h m with
  | zero => exact follow_of_forward_none hn m
  | succ n ih =>
    cases hf : (g.node h).forward with
    | none => rw [follow_of_forward_none hf, follow_of_forward_none hf]
    | some next =>
      obtain ⟨m, rfl⟩ : ∃ k, m = k + 1 := ⟨m - 1, by omega⟩
      rw [follow_of_forward_some hf] at hn ⊢
      rw [follow_of_forward_some hf]
      exact ih hn (by omega)

theorem follow_congr (hf : ∀ k, (g'.node k).forward = (g.node k).forward) (n : Nat) (h : Handle) :
    g'.follow n h = g.follow n h := by
  induction n generalizing h with
  | zero => rfl
  | succ n ih =>
    rw [follow, follow, hf h]
    cases (g.node h).forward with
    | none => rfl
    | some next => exact ih next

theorem resolve_congr (hs : g'.size = g.size) (hf : ∀ k, (g'.node k).forward = (g.node k).forward)
    (h : Handle) : g'.resolve h = g.resolve h := by
  unfold resolve
  rw [hs, follow_congr hf]

theorem follow_lt (hb : ∀ k next, (g.node k).forward = some next → next.index < g.size) (n : Nat)
    (hh : h.index < g.size) : (g.follow n h).index < g.size := by
  induction n generalizing h with
  | zero => exact hh
  | succ n ih =>
    cases hf : (g.node h).forward with
    | none => rwa [follow_of_forward_none hf]
    | some next =>
      rw [follow_of_forward_some hf]
      exact ih (hb h next hf)

theorem liveCount_le_size (g : Graph) : g.liveCount ≤ g.size := Array.countP_le_size

theorem liveCount_update_le (g : Graph) (h : Handle) {f : Node → Node}
    (hf : ∀ n, !(f n).isRetired → !n.isRetired) : (g.update h f).liveCount ≤ g.liveCount := by
  unfold liveCount update
  rw [← Array.countP_toList, ← Array.countP_toList, Array.toList_modify]
  exact countP_modify_le hf _ _

theorem liveCount_update_lt {f : Node → Node} (hb : h.index < g.size)
    (hh : !(g.node h).isRetired) (hf : ¬ !(f (g.node h)).isRetired) :
    (g.update h f).liveCount < g.liveCount := by
  unfold liveCount update
  rw [← Array.countP_toList, ← Array.countP_toList, Array.toList_modify]
  have hi : g.nodes.toList[h.index]? = some (g.node h) := by
    unfold node
    rw [Array.getElem?_toList, Array.getElem?_eq_getElem hb]
    rfl
  exact countP_modify_lt hi hh hf

theorem liveCount_foldl_le {α : Type} {f : Graph → α → Graph}
    (hf : ∀ g a, (f g a).liveCount ≤ g.liveCount) (l : List α) (g : Graph) :
    (l.foldl f g).liveCount ≤ g.liveCount := by
  induction l generalizing g with
  | nil => exact Nat.le_refl _
  | cons a l ih => exact Nat.le_trans (ih _) (hf g a)

namespace ForwardsEnd

variable (hg : g.ForwardsEnd)

include hg

theorem follow_eq_resolve {n : Nat} (hn : g.size - g.liveCount ≤ n) (h : Handle) :
    g.follow n h = g.resolve h := by
  unfold resolve
  rw [follow_of_le (hg h) hn, follow_of_le (hg h) (Nat.sub_le _ _)]

/-- What a handle stands for is live. -/
theorem forward_resolve (h : Handle) : (g.node (g.resolve h)).forward = none := by
  rw [← hg.follow_eq_resolve (Nat.le_refl _)]
  exact hg h

@[simp] theorem resolve_resolve (h : Handle) : g.resolve (g.resolve h) = g.resolve h :=
  resolve_of_forward_none (hg.forward_resolve h)

/-- A retired type stands for what its replacement stands for. -/
theorem resolve_of_forward_some {next : Handle} (hf : (g.node h).forward = some next) :
    g.resolve h = g.resolve next := by
  rw [← hg.follow_eq_resolve (Nat.le_succ _), follow_of_forward_some hf]
  exact hg.follow_eq_resolve (Nat.le_refl _) next

end ForwardsEnd

/-! ## Retiring -/

section Retire

variable (hb : old.index < g.size) (hold : (g.node old).forward = none)
  (hnew : (g.node new).forward = none) (hne : new ≠ old)

include hb hold hnew hne

/-- A path that ended in `old` goes on to `new`. -/
theorem follow_retire (n : Nat) (h : Handle) (hn : (g.node (g.follow n h)).forward = none) :
    (g.retire old new).follow (n + 1) h =
      if g.follow n h = old then new else g.follow n h := by
  have hlive : ∀ k, k ≠ old → (g.node k).forward = none →
      ((g.retire old new).node k).forward = none := by
    intro k hk hf
    rw [forward_retire new k hb, if_neg hk, hf]
  have hstart : ∀ n k, (g.node k).forward = none →
      (g.retire old new).follow (n + 1) k = if k = old then new else k := by
    intro n k hf
    by_cases hk : k = old
    · have hfwd : ((g.retire old new).node k).forward = some new := by
        rw [forward_retire new k hb, if_pos hk]
      rw [if_pos hk, follow_of_forward_some hfwd, follow_of_forward_none (hlive new hne hnew)]
    · rw [if_neg hk, follow_of_forward_none (hlive k hk hf)]
  induction n generalizing h with
  | zero => exact hstart 0 h hn
  | succ n ih =>
    cases hf : (g.node h).forward with
    | none =>
      rw [follow_of_forward_none hf]
      exact hstart (n + 1) h hf
    | some next =>
      have hk : h ≠ old := by
        rintro rfl
        rw [hold] at hf
        cases hf
      have hfwd : ((g.retire old new).node h).forward = some next := by
        rw [forward_retire new h hb, if_neg hk, hf]
      rw [follow_of_forward_some hf] at hn ⊢
      rw [follow_of_forward_some hfwd]
      exact ih next hn

/-- The path after retiring `old` ends within one link more. -/
theorem forward_follow_retire (n : Nat) (h : Handle)
    (hn : (g.node (g.follow n h)).forward = none) :
    ((g.retire old new).node ((g.retire old new).follow (n + 1) h)).forward = none := by
  rw [follow_retire hb hold hnew hne n h hn, forward_retire new _ hb]
  by_cases hk : g.follow n h = old
  · rw [if_pos hk, if_neg hne, hnew]
  · rw [if_neg hk, if_neg hk, hn]

omit hnew hne in
variable (new) in
theorem liveCount_retire_lt : (g.retire old new).liveCount < g.liveCount := by
  unfold retire
  refine Nat.lt_of_le_of_lt (liveCount_foldl_le (fun g s => ?_) _ _) ?_
  · exact g.liveCount_update_le s fun _ hn => hn
  · exact liveCount_update_lt (f := fun n =>
      { n with slots := [], isAbstract := false, forward := some new }) hb
      (by simp [Node.isRetired, hold]) (by simp [Node.isRetired])

/-- Retiring a live type in favour of another keeps all paths of forward links finite. -/
theorem ForwardsEnd.retire (hg : g.ForwardsEnd) : (g.retire old new).ForwardsEnd := by
  intro h
  have hlt := liveCount_retire_lt new hb hold
  have hle := g.liveCount_le_size
  have hlive := forward_follow_retire hb hold hnew hne _ h (hg h)
  rw [follow_of_le hlive (by rw [size_retire]; omega)]
  exact hlive

/-- After `old` is retired in favour of `new`, what stood for `old` stands for `new`. -/
theorem resolve_retire (hg : g.ForwardsEnd) (h : Handle) :
    (g.retire old new).resolve h = if g.resolve h = old then new else g.resolve h := by
  have hlt := liveCount_retire_lt new hb hold
  have hle := g.liveCount_le_size
  have hlive := forward_follow_retire hb hold hnew hne _ h (hg h)
  rw [← hg.follow_eq_resolve (Nat.le_refl _), ← follow_retire hb hold hnew hne _ h (hg h)]
  exact follow_of_le hlive (by rw [size_retire]; omega)

end Retire

end TypeGraph.Graph
