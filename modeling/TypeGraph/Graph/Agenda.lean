import TypeGraph.Graph.Promotion
import TypeGraph.Graph.Replacement

/-!
# The agenda of a refinement

A refinement is a list of tasks, the next one first. Each task changes the graph a little and may
put others before the rest.

1. `refine` retires an abstract type and has its observers told.
2. `settle` tells them one by one. A listener moves to the replacement. The owner of a slot is
   redirected: its slots move to the replacement, and if a type of its new structure is there
   already, the owner is refined to that type before the next observer is told. If not, it is
   registered again and promoted if it can be.
3. `announce` tells the observers of a type that it became concrete, which may promote the owners.
4. `abort` gives up with a fault.

`step_nearer` says that each task leads nearer to the end: it leaves fewer abstract types, or as
many and less work.
-/

namespace TypeGraph

/-- What is left to do in a refinement. -/
inductive Task where
  /-- Replace an abstract type by another. -/
  | refine (old new : Handle)
  /-- Tell the pending observers of a replaced type. -/
  | settle (old new : Handle) (pending : List Observer)
  /-- Tell the pending observers of a type that became concrete. -/
  | announce (ty : Handle) (pending : List Observer)
  /-- Give up. -/
  | abort (f : Fault)
deriving Repr

/-- The fault of a task that gives up. -/
def Task.fault? : Task → Option Fault
  | abort f => some f
  | refine _ _ | settle _ _ _ | announce _ _ => none

/-- The work in a task, as far as no type ceases to be abstract on the way. -/
def Task.weight : Task → Nat
  | abort _ => 1
  | refine _ _ => 2
  | settle _ _ pending => 3 * pending.length + 2
  | announce _ pending => 2 * pending.length + 1

/-- The work in an agenda. -/
def weight : List Task → Nat
  | [] => 0
  | t :: rest => t.weight + weight rest

theorem weight_append (a b : List Task) : weight (a ++ b) = weight a + weight b := by
  induction a with
  | nil => simp [weight]
  | cons t a ih =>
    rw [List.cons_append, weight, weight, ih]
    omega

/-- What a task leads to: the graph, the tasks that come first now, and what listeners hear. -/
structure Outcome where
  graph : Graph
  tasks : List Task
  events : List Event

namespace Graph

/-! ## Doing a task -/

/-- Makes a type and what it reaches concrete if no placeholder is in reach. -/
def promote (g : Graph) (start : Handle) : Graph × List Task :=
  let group := g.promotable start
  (g.concretizeAll group, group.map fun h => .announce h (g.observers h))

/-- Tells the owner of a slot that `old` was replaced by `new`. -/
def redirectOwner (g : Graph) (owner old new : Handle) : Graph × List Task :=
  if (g.node owner).isPlaceholder then
    (g, [.abort (.placeholderObserves owner old)])
  else
    let g := (g.unregister owner).retarget owner old new
    match g.keyOfNode owner with
    | .error f => (g, [.abort f])
    | .ok k =>
      match g.equivalent? owner k with
      | some existing => (g, [.refine owner existing])
      | none =>
        match g.registerProvisional owner k with
        | .error f => (g, [.abort f])
        | .ok g => g.promote owner

/-- Starts to replace a type. -/
def refineStep (g : Graph) (old new : Handle) : Outcome :=
  if (g.node old).isRetired then ⟨g, [.abort (.alreadyRefined old)], []⟩
  else if !(g.node old).isAbstract then ⟨g, [.abort (.notAbstract old)], []⟩
  else if g.resolve new = old then ⟨g, [.abort (.selfRefinement old)], []⟩
  else
    let retired := g.retire old (g.resolve new)
    ⟨retired, [.settle old (g.resolve new) (retired.observers old)], []⟩

/-- Tells an observer of a replaced type. -/
def tellReplaced (g : Graph) (old new : Handle) : Observer → Outcome
  | .owner owner =>
    let redirected := g.redirectOwner owner old (g.resolve new)
    ⟨redirected.1, redirected.2, []⟩
  | .listener id =>
    let moved := g.moveListener id old (g.resolve new)
    ⟨moved.1, [], moved.2⟩

/-- Tells an observer of a type that became concrete. -/
def tellConcrete (g : Graph) (ty : Handle) : Observer → Outcome
  | .owner owner =>
    if (g.node owner).isPlaceholder then
      ⟨g, [.abort (.placeholderObserves owner ty)], []⟩
    else
      let promoted := g.promote owner
      ⟨promoted.1, promoted.2, []⟩
  | .listener id => ⟨g, [], g.concreteEvents id ty⟩

/-- Tells the next observer of a replaced type, unless it stopped observing meanwhile. -/
def settleStep (g : Graph) (old new : Handle) : List Observer → Outcome
  | [] => if (g.node old).observerCount = 0 then ⟨g, [], []⟩ else ⟨g, [.abort (.stillObserved old)], []⟩
  | o :: pending =>
    if (g.node old).isObservedBy o then
      let told := g.tellReplaced old new o
      ⟨told.graph, told.tasks ++ [.settle old new pending], told.events⟩
    else
      ⟨g, [.settle old new pending], []⟩

/-- Tells the next observer that a type became concrete. -/
def announceStep (g : Graph) (ty : Handle) : List Observer → Outcome
  | [] => ⟨g, [], []⟩
  | o :: pending =>
    let told := g.tellConcrete ty o
    ⟨told.graph, told.tasks ++ [.announce ty pending], told.events⟩

/-- Does one task. -/
def step (g : Graph) : Task → Outcome
  | .refine old new => g.refineStep old new
  | .settle old new pending => g.settleStep old new pending
  | .announce ty pending => g.announceStep ty pending
  | .abort _ => ⟨g, [], []⟩

/-! ## Each task leads nearer to the end -/

/-- The outcome has fewer abstract types, or no more of them and work below `w`. -/
def Nearer (g : Graph) (w : Nat) (out : Outcome) : Prop :=
  out.graph.abstractCount < g.abstractCount ∨
    out.graph.abstractCount ≤ g.abstractCount ∧ weight out.tasks < w

theorem nearer_of_weight_lt {g : Graph} {w : Nat} {tasks : List Task} {events : List Event}
    (h : weight tasks < w) : g.Nearer w ⟨g, tasks, events⟩ :=
  .inr ⟨Nat.le_refl _, h⟩

/-- What comes behind the outcome adds to the work and to the bound alike. -/
theorem Nearer.behind {g : Graph} {w v : Nat} {out : Outcome} (h : g.Nearer w out)
    {rest : List Task} (hv : w + weight rest ≤ v) :
    g.Nearer v ⟨out.graph, out.tasks ++ rest, out.events⟩ := by
  rcases h with h | ⟨hle, hw⟩
  · exact .inl h
  · refine .inr ⟨hle, ?_⟩
    rw [weight_append]
    omega

theorem promote_nearer (g : Graph) (start : Handle) :
    g.Nearer 1 ⟨(g.promote start).1, (g.promote start).2, []⟩ := by
  unfold promote
  by_cases h : g.promotable start = []
  · simp only [h]
    exact nearer_of_weight_lt Nat.zero_lt_one
  · exact .inl (abstractCount_promotable_lt h)

theorem redirectOwner_nearer (g : Graph) (owner old new : Handle) :
    g.Nearer 3 ⟨(g.redirectOwner owner old new).1, (g.redirectOwner owner old new).2, []⟩ := by
  have hle : ((g.unregister owner).retarget owner old new).abstractCount ≤ g.abstractCount :=
    (g.unregister owner).abstractCount_retarget_le owner old new
  unfold redirectOwner
  split
  · exact nearer_of_weight_lt (by decide : 1 < 3)
  · simp only
    split
    · exact .inr ⟨hle, (by decide : 1 < 3)⟩
    · split
      · exact .inr ⟨hle, (by decide : 2 < 3)⟩
      · split
        · exact .inr ⟨hle, (by decide : 1 < 3)⟩
        · next g₁ hreg =>
          have heq := abstractCount_registerProvisional hreg
          rcases g₁.promote_nearer owner with hp | ⟨hp, hw⟩
          · exact .inl (by simp only at hp ⊢; omega)
          · exact .inr ⟨by simp only at hp ⊢; omega, by simp only at hw ⊢; omega⟩

theorem refineStep_nearer (g : Graph) (old new : Handle) : g.Nearer 2 (g.refineStep old new) := by
  unfold refineStep
  split
  · exact nearer_of_weight_lt (by decide : 1 < 2)
  · split
    · exact nearer_of_weight_lt (by decide : 1 < 2)
    · split
      · exact nearer_of_weight_lt (by decide : 1 < 2)
      · next ha _ => exact .inl (abstractCount_retire_lt (by simpa using ha))

theorem tellReplaced_nearer (g : Graph) (old new : Handle) (o : Observer) :
    g.Nearer 3 (g.tellReplaced old new o) := by
  cases o with
  | owner owner => exact g.redirectOwner_nearer owner old (g.resolve new)
  | listener id => exact .inr ⟨g.abstractCount_moveListener_le id old _, (by decide : 0 < 3)⟩

theorem tellConcrete_nearer (g : Graph) (ty : Handle) (o : Observer) :
    g.Nearer 2 (g.tellConcrete ty o) := by
  cases o with
  | owner owner =>
    unfold tellConcrete
    simp only
    split
    · exact nearer_of_weight_lt (by decide : 1 < 2)
    · rcases g.promote_nearer owner with hp | ⟨hp, hw⟩
      · exact .inl hp
      · exact .inr ⟨hp, Nat.lt_succ_of_lt hw⟩
  | listener id => exact nearer_of_weight_lt (by decide : 0 < 2)

/-- **Progress.** Doing a task leaves fewer abstract types, or as many and less work. -/
theorem step_nearer (g : Graph) (t : Task) : g.Nearer t.weight (g.step t) := by
  cases t with
  | refine old new => exact g.refineStep_nearer old new
  | abort f => exact nearer_of_weight_lt (by decide : 0 < 1)
  | settle old new pending =>
    cases pending with
    | nil =>
      unfold step settleStep
      simp only
      split
      · exact nearer_of_weight_lt (by decide : 0 < 2)
      · exact nearer_of_weight_lt (by decide : 1 < 2)
    | cons o pending =>
      unfold step settleStep
      simp only
      split
      · refine (g.tellReplaced_nearer old new o).behind ?_
        simp only [weight, Task.weight, List.length_cons]
        omega
      · refine nearer_of_weight_lt ?_
        simp only [weight, Task.weight, List.length_cons]
        omega
  | announce ty pending =>
    cases pending with
    | nil => exact nearer_of_weight_lt (by decide : 0 < 1)
    | cons o pending =>
      refine (g.tellConcrete_nearer ty o).behind ?_
      simp only [weight, Task.weight, List.length_cons]
      omega

end Graph

end TypeGraph
