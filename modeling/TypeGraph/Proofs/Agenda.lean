import TypeGraph.Proofs.WellFormed

/-!
# A refinement as a run

A successful refinement retires its type and then works off an agenda of `settle` and `announce`
tasks. `Advance` says once what such a task can do. The collapse of an owner into another type and
the retirement of the owner are one advance, so that no type is ever between the two.

`refine_induction`: what holds once the type is retired, and is kept by each advance, holds at the
end of the refinement.
-/

namespace TypeGraph

/-- The fault that an outcome gives up with, if it does. -/
def Outcome.fault? (out : Outcome) : Option Fault := out.tasks.head?.bind Task.fault?

namespace Graph

/-- The owner of a slot out of the registry, its slots moved from `old` to `new`. -/
def rewire (g : Graph) (owner old new : Handle) : Graph :=
  (g.unregister owner).retarget owner old new

/-- What a refinement asks of its types. -/
structure Refinable (g : Graph) (old new : Handle) : Prop where
  forward_eq : (g.node old).forward = none
  isAbstract : (g.node old).isAbstract
  ne : g.resolve new ≠ old

/-- The graph once `old` is retired. -/
def begin (g : Graph) (old new : Handle) : Graph := g.retire old (g.resolve new)

/-- The task that is left once `old` is retired. -/
def settling (g : Graph) (old new : Handle) : Task :=
  .settle old (g.resolve new) ((g.begin old new).observers old)

theorem size_begin (g : Graph) (old new : Handle) : (g.begin old new).size = g.size := size_retire ..

section Rewire

variable (g : Graph) (owner old new k : Handle)

theorem size_rewire : (g.rewire owner old new).size = g.size := size_retarget ..

theorem shape_rewire : ((g.rewire owner old new).node k).shape = (g.node k).shape :=
  shape_retarget ..

theorem slots_rewire :
    ((g.rewire owner old new).node k).slots =
      if k = owner then (g.node k).slots.map fun s => if s = old then new else s
      else (g.node k).slots := slots_retarget ..

theorem isAbstract_rewire : ((g.rewire owner old new).node k).isAbstract = (g.node k).isAbstract :=
  isAbstract_retarget ..

theorem forward_rewire : ((g.rewire owner old new).node k).forward = (g.node k).forward :=
  forward_retarget ..

theorem watchers_rewire : ((g.rewire owner old new).node k).watchers = (g.node k).watchers :=
  watchers_retarget ..

theorem subscriptions_rewire : (g.rewire owner old new).subscriptions = g.subscriptions :=
  subscriptions_retarget ..

theorem live_rewire : (g.rewire owner old new).Live k ↔ g.Live k := live_congr (forward_rewire ..)

theorem resolve_rewire : (g.rewire owner old new).resolve k = g.resolve k :=
  resolve_congr (size_rewire ..) (g.forward_rewire owner old new) k

end Rewire

section Begin

variable {g : Graph} {old new : Handle} (hr : g.Refinable old new) (k : Handle)

include hr

theorem Refinable.old_lt : old.index < g.size := WellFormed.lt_of_isAbstract hr.isAbstract

theorem shape_begin : ((g.begin old new).node k).shape = (g.node k).shape :=
  shape_retire _ k hr.old_lt

theorem slots_begin :
    ((g.begin old new).node k).slots = if k = old then [] else (g.node k).slots :=
  slots_retire _ k hr.old_lt

theorem isAbstract_begin :
    ((g.begin old new).node k).isAbstract = if k = old then false else (g.node k).isAbstract :=
  isAbstract_retire _ k hr.old_lt

theorem forward_begin :
    ((g.begin old new).node k).forward =
      if k = old then some (g.resolve new) else (g.node k).forward :=
  forward_retire _ k hr.old_lt

theorem live_begin : (g.begin old new).Live k ↔ k ≠ old ∧ g.Live k := live_retire _ k hr.old_lt

/-- What stood for the retired type stands for its replacement. -/
theorem resolve_begin (hwf : g.WellFormed) :
    (g.begin old new).resolve k =
      if g.resolve k = old then g.resolve new else g.resolve k :=
  resolve_retire hr.old_lt hr.forward_eq (hwf.live_resolve new) hr.ne hwf.forwardsEnd k

theorem WellFormed.begin (hwf : g.WellFormed) (hlt : new.index < g.size) :
    (g.begin old new).WellFormed :=
  hwf.retire hr.isAbstract (hwf.live_resolve new) (hwf.resolve_lt hlt) hr.ne

end Begin

/-- One task of an agenda done, with what listeners hear. -/
inductive Advance : Graph → List Task → List Event → Graph → List Task → Prop where
  /-- All observers of a replaced type were told. -/
  | settled {g : Graph} {old new : Handle} {rest : List Task}
      (ho : (g.node old).observerCount = 0) : Advance g (.settle old new [] :: rest) [] g rest
  /-- The observer left the replaced type meanwhile. -/
  | pass {g : Graph} {old new : Handle} {o : Observer} {pending : List Observer} {rest : List Task}
      (ho : (g.node old).isObservedBy o = false) :
      Advance g (.settle old new (o :: pending) :: rest) [] g (.settle old new pending :: rest)
  /-- A listener moves to the replacement. -/
  | move {g : Graph} {old new : Handle} {id : ListenerId} {pending : List Observer}
      {rest : List Task} (ho : id ∈ (g.node old).watchers) :
      Advance g (.settle old new (.listener id :: pending) :: rest)
        (g.moveListener id old (g.resolve new)).2 (g.moveListener id old (g.resolve new)).1
        (.settle old new pending :: rest)
  /-- An owner has the structure of another type by now, and is replaced by it. -/
  | collapse {g g' : Graph} {old new owner existing : Handle} {k : Key} {pending : List Observer}
      {rest : List Task} (ho : owner ∈ (g.node old).owners)
      (hg : g' = g.rewire owner old (g.resolve new)) (hk : g'.keyOfNode owner = .ok k)
      (he : g'.equivalent? owner k = some existing) (hr : g'.Refinable owner existing) :
      Advance g (.settle old new (.owner owner :: pending) :: rest) [] (g'.begin owner existing)
        (g'.settling owner existing :: .settle old new pending :: rest)
  /-- An owner has a structure of its own, and is registered and promoted if it can be. -/
  | keep {g g' g'' : Graph} {old new owner : Handle} {k : Key} {pending : List Observer}
      {rest : List Task} (ho : owner ∈ (g.node old).owners)
      (hg : g' = g.rewire owner old (g.resolve new)) (hk : g'.keyOfNode owner = .ok k)
      (he : g'.equivalent? owner k = none) (hr : g'.registerProvisional owner k = .ok g'') :
      Advance g (.settle old new (.owner owner :: pending) :: rest) [] (g''.promote owner).1
        ((g''.promote owner).2 ++ .settle old new pending :: rest)
  /-- All observers of a concrete type were told. -/
  | announced {g : Graph} {ty : Handle} {rest : List Task} :
      Advance g (.announce ty [] :: rest) [] g rest
  /-- An owner hears that a component became concrete, and is promoted if it can be. -/
  | promote {g : Graph} {ty owner : Handle} {pending : List Observer} {rest : List Task}
      (ho : (g.node owner).isPlaceholder = false) :
      Advance g (.announce ty (.owner owner :: pending) :: rest) [] (g.promote owner).1
        ((g.promote owner).2 ++ .announce ty pending :: rest)
  /-- A listener hears that its type became concrete. -/
  | hear {g : Graph} {ty : Handle} {id : ListenerId} {pending : List Observer} {rest : List Task} :
      Advance g (.announce ty (.listener id :: pending) :: rest) (g.concreteEvents id ty) g
        (.announce ty pending :: rest)

/-- No refinement of the agenda is still to begin. -/
def Begun (agenda : List Task) : Prop := ∀ old new, Task.refine old new ∉ agenda

theorem Begun.tail {t : Task} {rest : List Task} (h : Begun (t :: rest)) : Begun rest :=
  fun old new hm => h old new (List.mem_cons_of_mem _ hm)

theorem Begun.ne_refine {t : Task} {rest : List Task} (h : Begun (t :: rest)) (old new : Handle) :
    t ≠ .refine old new := by
  rintro rfl
  exact h old new List.mem_cons_self

theorem Begun.cons {t : Task} {rest : List Task} (ht : ∀ old new, t ≠ .refine old new)
    (h : Begun rest) : Begun (t :: rest) := by
  intro old new hm
  rcases List.mem_cons.1 hm with hm | hm
  · exact ht old new hm.symm
  · exact h old new hm

variable {g : Graph} {heard : List Event} {rest : List Task} {out : Graph × List Event}

/-- A run that succeeds does not give up at its next step. -/
theorem fault?_eq_none_of_run {next : Outcome}
    (h : next.graph.run (next.tasks ++ rest) heard = .ok out) : next.fault? = none := by
  unfold Outcome.fault?
  cases ht : next.tasks with
  | nil => rfl
  | cons t tasks =>
    rw [ht, List.cons_append, run] at h
    cases hf : t.fault? with
    | none => exact hf
    | some f =>
      rw [hf] at h
      cases h

/-- A refinement of types that can be refined retires one of them. -/
theorem Refinable.refineStep_eq {old new : Handle} (hr : g.Refinable old new) :
    g.refineStep old new = ⟨g.begin old new, [g.settling old new], []⟩ := by
  have hlive : (g.node old).isRetired = false := isRetired_eq_false_iff.2 hr.forward_eq
  unfold refineStep
  rw [if_neg (by simp [hlive]), if_neg (by simp [hr.isAbstract]), if_neg hr.ne]
  rfl

/-- Only types that can be refined are. -/
theorem refinable_of_refineStep {old new : Handle} (h : (g.refineStep old new).fault? = none) :
    g.Refinable old new := by
  unfold refineStep at h
  split at h
  · cases h
  · next hlive =>
    split at h
    · cases h
    · next habs =>
      split at h
      · cases h
      · next hne =>
        exact ⟨isRetired_eq_false_iff.1 (by simpa using hlive), by simpa using habs, hne⟩

theorem redirectOwner_eq {owner old new : Handle} (hp : ¬ (g.node owner).isPlaceholder) :
    g.redirectOwner owner old new =
      match (g.rewire owner old new).keyOfNode owner with
      | .error f => (g.rewire owner old new, [.abort f])
      | .ok k =>
        match (g.rewire owner old new).equivalent? owner k with
        | some existing => (g.rewire owner old new, [.refine owner existing])
        | none =>
          match (g.rewire owner old new).registerProvisional owner k with
          | .error f => (g.rewire owner old new, [.abort f])
          | .ok g' => g'.promote owner := by
  unfold redirectOwner
  rw [if_neg hp]
  rfl

/-- What can become of the owner of a slot whose type was replaced. -/
theorem redirectOwner_cases (g : Graph) (owner old new : Handle) :
    (∃ g' f, g.redirectOwner owner old new = (g', [.abort f])) ∨
    (∃ k existing, (g.rewire owner old new).keyOfNode owner = .ok k ∧
      (g.rewire owner old new).equivalent? owner k = some existing ∧
      g.redirectOwner owner old new = (g.rewire owner old new, [.refine owner existing])) ∨
    ∃ k g', (g.rewire owner old new).keyOfNode owner = .ok k ∧
      (g.rewire owner old new).equivalent? owner k = none ∧
      (g.rewire owner old new).registerProvisional owner k = .ok g' ∧
      g.redirectOwner owner old new = g'.promote owner := by
  by_cases hp : (g.node owner).isPlaceholder
  · exact .inl ⟨g, .placeholderObserves owner old, by unfold redirectOwner; rw [if_pos hp]⟩
  · rw [redirectOwner_eq hp]
    cases hk : (g.rewire owner old new).keyOfNode owner with
    | error f => exact .inl ⟨_, _, rfl⟩
    | ok k =>
      cases he : (g.rewire owner old new).equivalent? owner k with
      | some existing => exact .inr (.inl ⟨k, existing, rfl, he, by simp only [he]⟩)
      | none =>
        cases hr : (g.rewire owner old new).registerProvisional owner k with
        | error f => exact .inl ⟨g.rewire owner old new, f, by simp only [he, hr]⟩
        | ok g' => exact .inr (.inr ⟨k, g', rfl, he, hr, by simp only [he, hr]⟩)

/-- The owner of a slot of `old` has the structure of `existing` once its slots have moved. -/
structure Collapses (g : Graph) (owner old new existing : Handle) : Prop where
  mem_owners : owner ∈ (g.node old).owners
  exists_key : ∃ k, (g.rewire owner old (g.resolve new)).keyOfNode owner = .ok k ∧
    (g.rewire owner old (g.resolve new)).equivalent? owner k = some existing

theorem Collapses.advance {owner old new existing : Handle} {pending : List Observer}
    (h : g.Collapses owner old new existing)
    (hr : (g.rewire owner old (g.resolve new)).Refinable owner existing) :
    Advance g (.settle old new (.owner owner :: pending) :: rest) []
      ((g.rewire owner old (g.resolve new)).begin owner existing)
      ((g.rewire owner old (g.resolve new)).settling owner existing ::
        .settle old new pending :: rest) :=
  have ⟨_, hk, he⟩ := h.exists_key
  .collapse h.mem_owners rfl hk he hr

/-- A task that is no refinement advances the agenda, or rewires an owner whose refinement comes
next. -/
theorem advance_of_step {t : Task} (ht : ∀ old new, t ≠ .refine old new) (hf : t.fault? = none)
    (hok : (g.step t).fault? = none) :
    Advance g (t :: rest) (g.step t).events (g.step t).graph ((g.step t).tasks ++ rest) ∨
      ∃ old new owner existing pending, t = .settle old new (.owner owner :: pending) ∧
        g.Collapses owner old new existing ∧
        g.step t = ⟨g.rewire owner old (g.resolve new),
          [.refine owner existing, .settle old new pending], []⟩ := by
  cases t with
  | refine old new => exact absurd rfl (ht old new)
  | abort f => cases hf
  | settle old new pending =>
    cases pending with
    | nil =>
      unfold step settleStep at hok ⊢
      simp only at hok ⊢
      split at hok
      · next ho =>
        rw [if_pos ho]
        exact .inl (.settled ho)
      · cases hok
    | cons o pending =>
      unfold step settleStep at hok ⊢
      simp only at hok ⊢
      by_cases ho : (g.node old).isObservedBy o
      · rw [if_pos ho] at hok ⊢
        cases o with
        | listener id => exact .inl (.move (Node.isObservedBy_listener.1 ho))
        | owner owner =>
          have hmem : owner ∈ (g.node old).owners := Node.isObservedBy_owner.1 ho
          unfold tellReplaced at hok ⊢
          simp only [List.append_assoc, List.singleton_append] at hok ⊢
          rcases g.redirectOwner_cases owner old (g.resolve new) with
            ⟨g', f, hred⟩ | ⟨k, existing, hk, he, hred⟩ | ⟨k, g', hk, he, hr, hred⟩
          · rw [hred] at hok
            cases hok
          · rw [hred]
            exact .inr ⟨old, new, owner, existing, pending, rfl, ⟨hmem, k, hk, he⟩, rfl⟩
          · rw [hred]
            exact .inl (.keep hmem rfl hk he hr)
      · rw [if_neg ho]
        exact .inl (.pass (by simpa using ho))
  | announce ty pending =>
    cases pending with
    | nil => exact .inl .announced
    | cons o pending =>
      cases o with
      | listener id => exact .inl .hear
      | owner owner =>
        unfold step announceStep tellConcrete at hok ⊢
        simp only [List.append_assoc, List.singleton_append] at hok ⊢
        by_cases hp : (g.node owner).isPlaceholder
        · rw [if_pos hp] at hok
          cases hok
        · rw [if_neg hp]
          exact .inl (.promote (by simpa using hp))

/-- What holds of all tasks that tell observers, each advance keeps of all tasks left. -/
theorem Advance.forall_mem {p : Task → Prop} {agenda agenda' : List Task} {events : List Event}
    {g' : Graph} (hsettle : ∀ old new pending, p (.settle old new pending))
    (hannounce : ∀ ty pending, p (.announce ty pending))
    (h : Advance g agenda events g' agenda') (ha : ∀ t ∈ agenda, p t) : ∀ t ∈ agenda', p t := by
  have hpromote : ∀ {g : Graph} {start : Handle}, ∀ t ∈ (g.promote start).2, p t := by
    intro g start t ht
    obtain ⟨_, _, rfl⟩ := List.mem_map.1 ht
    exact hannounce _ _
  cases h with
  | settled => exact (List.forall_mem_cons.1 ha).2
  | pass => exact List.forall_mem_cons.2 ⟨hsettle .., (List.forall_mem_cons.1 ha).2⟩
  | move => exact List.forall_mem_cons.2 ⟨hsettle .., (List.forall_mem_cons.1 ha).2⟩
  | collapse =>
    exact List.forall_mem_cons.2 ⟨hsettle ..,
      List.forall_mem_cons.2 ⟨hsettle .., (List.forall_mem_cons.1 ha).2⟩⟩
  | keep =>
    exact List.forall_mem_append.2 ⟨hpromote,
      List.forall_mem_cons.2 ⟨hsettle .., (List.forall_mem_cons.1 ha).2⟩⟩
  | announced => exact (List.forall_mem_cons.1 ha).2
  | promote =>
    exact List.forall_mem_append.2 ⟨hpromote,
      List.forall_mem_cons.2 ⟨hannounce .., (List.forall_mem_cons.1 ha).2⟩⟩
  | hear => exact List.forall_mem_cons.2 ⟨hannounce .., (List.forall_mem_cons.1 ha).2⟩

theorem Advance.begun {agenda agenda' : List Task} {events : List Event} {g' : Graph}
    (h : Advance g agenda events g' agenda') (ha : Begun agenda) : Begun agenda' := by
  have hall := h.forall_mem (p := fun t => ∀ old new, t ≠ .refine old new)
    (fun _ _ _ _ _ heq => by cases heq) (fun _ _ _ _ heq => by cases heq)
    fun t ht old new heq => ha old new (heq ▸ ht)
  exact fun old new hm => hall _ hm old new rfl

/-- What each advance keeps holds at the end of a run, whether or not the first task of its agenda
is a refinement that is still to begin. -/
theorem run_induction {P : Graph → List Task → List Event → Prop}
    (hstep : ∀ {g agenda events g' agenda' heard}, P g agenda heard →
      Advance g agenda events g' agenda' → P g' agenda' (heard ++ events))
    (g : Graph) (agenda : List Task) (heard : List Event) (h : g.run agenda heard = .ok out) :
    (Begun agenda → P g agenda heard → P out.1 [] out.2) ∧
    ∀ old new rest, agenda = .refine old new :: rest → Begun rest →
      (g.Refinable old new → P (g.begin old new) (g.settling old new :: rest) heard) →
      P out.1 [] out.2 := by
  fun_induction run g agenda heard with
  | case1 g heard =>
    cases h
    exact ⟨fun _ h => h, fun _ _ _ h => by cases h⟩
  | case2 g heard t rest f hf => cases h
  | case3 g heard t rest hf out' ih =>
    obtain ⟨ihbegun, ihrefine⟩ := ih h
    constructor
    · intro hbegun hP
      rcases advance_of_step hbegun.ne_refine hf (fault?_eq_none_of_run h) with
        hadv | ⟨old, new, owner, existing, pending, rfl, hcollapse, hout⟩
      · exact ihbegun (hadv.begun hbegun) (hstep hP hadv)
      · have hout' : out' = _ := hout
        rw [hout'] at ihrefine
        exact ihrefine owner existing (.settle old new pending :: rest) rfl
          (hbegun.tail.cons fun _ _ h => by cases h) fun href => hstep hP (hcollapse.advance href)
    · rintro old new rest' heq hbegun hP
      obtain ⟨rfl, rfl⟩ := List.cons.inj heq
      have href := refinable_of_refineStep (fault?_eq_none_of_run h)
      have hout' : out' = ⟨g.begin old new, [g.settling old new], []⟩ := href.refineStep_eq
      rw [hout'] at ihbegun
      simp only [List.singleton_append, List.append_nil] at ihbegun
      exact ihbegun (hbegun.cons fun _ _ h => by cases h) (hP href)

/-- **Induction over a refinement.** What holds once `old` is retired, and is kept by each advance,
holds at the end. -/
theorem refine_induction {P : Graph → List Task → List Event → Prop} {old new : Handle}
    (h : g.refine old new = .ok out)
    (hbegin : g.Refinable old new → P (g.begin old new) [g.settling old new] [])
    (hstep : ∀ {g agenda events g' agenda' heard}, P g agenda heard →
      Advance g agenda events g' agenda' → P g' agenda' (heard ++ events)) :
    P out.1 [] out.2 :=
  (run_induction hstep g _ _ h).2 old new [] rfl (fun _ _ => List.not_mem_nil) hbegin

end Graph

end TypeGraph
