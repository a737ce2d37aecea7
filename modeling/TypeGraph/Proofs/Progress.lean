import TypeGraph.Proofs.Attendance

/-!
# No task of a refinement gives up

Each task checks something before it goes on: a type that is refined must be live, abstract and no
replacement of itself; an owner must have a key, and must not be registered yet when it registers
again; a type whose observers were all told must have none left. `Passes` lists these checks.

1. In a steady graph each task that tells observers passes its checks (`Steady.passes`).
2. A task that passes does not give up (`Passes.fault?_step`).
3. So it leads to a steady graph, or to the refinement of an owner that passes in turn
   (`Sound.step`).
-/

namespace TypeGraph.Graph

/-! ## The checks -/

/-- No type of the group that is promoted finds its key taken in the canonical table. -/
def PromotesFreely (g : Graph) (start : Handle) : Prop :=
  ∀ done h todo, g.promotable start = done ++ h :: todo →
    ∃ r, (g.concretizeAll done).registry.promote h = .ok r

/-- The checks on an owner that is told that `old` was replaced by `new`. -/
structure Redirects (g : Graph) (owner old new : Handle) : Prop where
  not_isPlaceholder : (g.node owner).isPlaceholder = false
  exists_key : ∃ key, (g.rewire owner old new).keyOfNode owner = .ok key
  /-- A type of the same structure can replace the owner. -/
  refinable : ∀ {key existing}, (g.rewire owner old new).keyOfNode owner = .ok key →
    (g.rewire owner old new).equivalent? owner key = some existing →
      (g.rewire owner old new).Refinable owner existing
  /-- If there is none, neither the key nor the owner is registered. -/
  unregistered : ∀ {key}, (g.rewire owner old new).keyOfNode owner = .ok key →
    (g.rewire owner old new).equivalent? owner key = none →
      (g.rewire owner old new).registry.lookup key = none ∧
        (g.rewire owner old new).registry.entry? owner = none
  promotesFreely : ∀ {key g'}, (g.rewire owner old new).keyOfNode owner = .ok key →
    (g.rewire owner old new).registerProvisional owner key = .ok g' → g'.PromotesFreely owner

/-- The checks of a task. -/
def Passes (g : Graph) : Task → Prop
  | .refine old new => g.Refinable old new
  | .settle old _ [] => g.observerCount old = 0
  | .settle old new (.owner owner :: _) =>
    owner ∈ (g.node old).owners → g.Redirects owner old (g.resolve new)
  | .settle _ _ (.listener _ :: _) => True
  | .announce _ [] => True
  | .announce _ (.owner owner :: _) => (g.node owner).isPlaceholder = false ∧ g.PromotesFreely owner
  | .announce _ (.listener _ :: _) => True
  | .abort _ => False

/-! ## Tasks that pass do not give up -/

section Passes

variable {g : Graph} {owner old new start : Handle}

/-- Promotion and what is put behind its tasks. -/
theorem fault?_promote {t : Task} (ht : t.fault? = none) (g' : Graph) (events : List Event) :
    (⟨g', (g.promote start).2 ++ [t], events⟩ : Outcome).fault? = none := by
  unfold promote Outcome.fault?
  cases g.promotable start with
  | nil => exact ht
  | cons h group => rfl

theorem Redirects.fault?_redirectOwner (hr : g.Redirects owner old new) {t : Task}
    (ht : t.fault? = none) (g' : Graph) (events : List Event) :
    (⟨g', (g.redirectOwner owner old new).2 ++ [t], events⟩ : Outcome).fault? = none := by
  obtain ⟨key, hk⟩ := hr.exists_key
  rw [redirectOwner_eq (by simp [hr.not_isPlaceholder])]
  simp only [hk]
  cases he : (g.rewire owner old new).equivalent? owner key with
  | some existing => rfl
  | none =>
    obtain ⟨hlookup, hentry⟩ := hr.unregistered hk he
    have hreg : (g.rewire owner old new).registerProvisional owner key =
        .ok { g.rewire owner old new with
          registry := (g.rewire owner old new).registry.insert owner key .provisional } := by
      unfold registerProvisional
      rw [hlookup, hentry]
      rfl
    simp only [hreg]
    exact fault?_promote ht g' events

theorem Passes.fault?_step {t : Task} (h : g.Passes t) : (g.step t).fault? = none := by
  cases t with
  | refine old new =>
    show (g.refineStep old new).fault? = none
    rw [Refinable.refineStep_eq h]
    rfl
  | abort f => exact h.elim
  | settle old new pending =>
    unfold step settleStep
    cases pending with
    | nil =>
      have hzero : (g.node old).observerCount = 0 := h
      simp only
      rw [if_pos hzero]
      rfl
    | cons o pending =>
      simp only
      split
      · next ho =>
        cases o with
        | listener id => rfl
        | owner owner => exact (h (Node.isObservedBy_owner.1 ho)).fault?_redirectOwner rfl _ _
      · rfl
  | announce ty pending =>
    cases pending with
    | nil => rfl
    | cons o pending =>
      cases o with
      | listener id => rfl
      | owner owner =>
        unfold step announceStep tellConcrete
        simp only
        rw [if_neg (by simp [h.1])]
        exact fault?_promote rfl _ _

end Passes

/-! ## Steady graphs -/

/-- Between two tasks that tell observers, all that is known of the graph and the tasks left. -/
structure Steady (g : Graph) (agenda : List Task) : Prop where
  begun : Begun agenda
  fault?_eq_none : ∀ t ∈ agenda, t.fault? = none
  consistent : g.Consistent agenda
  attended : g.Attended agenda

variable {g g' : Graph} {owner old new : Handle} {agenda agenda' rest : List Task}
  {events : List Event}

theorem Advance.steady (hx : Advance g agenda events g' agenda') (hs : g.Steady agenda) :
    g'.Steady agenda' :=
  ⟨hx.begun hs.begun, hx.forall_mem (fun _ _ _ => rfl) (fun _ _ => rfl) hs.fault?_eq_none,
    hx.consistent hs.consistent, hx.attended hs.consistent hs.attended⟩

/-- The canonical table never holds a second instance of a key, so promotion always succeeds. -/
theorem promotesFreely_of_injective (hi : g.registry.Injective) (start : Handle) :
    g.PromotesFreely start := by
  intro done h todo _
  rw [registry_concretizeAll hi]
  exact ⟨_, (hi.finalize done).promote h⟩

/-- An owner is out of the registry while its slots move. -/
theorem not_holds_rewire : ¬ (g.rewire owner old new).registry.Holds owner := by
  rintro ⟨e, he, rfl⟩
  unfold rewire at he
  rw [registry_retarget] at he
  exact (Registry.mem_remove.1 he).2 rfl

/-- An owner that is about to be told is live and abstract, and leaves the registry first. -/
theorem Attended.redirects {pending : List Observer}
    (ha : g.Attended (.settle old new (.owner owner :: pending) :: rest))
    (ho : owner ∈ (g.node old).owners) : g.Redirects owner old (g.resolve new) := by
  have hp := ha.toPoised.rewire ho
  have habs := ha.isAbstract_told ho
  have hlive := hp.wellFormed.live_of_isAbstract habs
  have hkey : (g.rewire owner old (g.resolve new)).keyOfNode owner =
      .ok ((g.rewire owner old (g.resolve new)).node owner).key := by
    refine hp.wellFormed.keyOfNode_eq hlive ?_
    rw [Node.kind, shape_rewire]
    exact ha.wellFormed.isUniqued_of_mem_slots (ha.owners.mem_slots ho)
  constructor
  · exact ha.not_isPlaceholder_of_owner ho
  · exact ⟨_, hkey⟩
  · intro key existing _ he
    obtain ⟨hh, hne, -⟩ := hp.indexed.of_equivalent? he
    refine ⟨hlive, habs, ?_⟩
    rwa [(hp.indexed.live_of_holds hh).resolve_eq]
  · intro key hk he
    refine ⟨?_, Registry.entry?_eq_none_iff.2 not_holds_rewire⟩
    cases hl : (g.rewire owner old (g.resolve new)).registry.lookup key with
    | none => rfl
    | some h =>
      obtain ⟨hh, hkey'⟩ := hp.indexed.of_lookup hl
      have hne : h ≠ owner := by
        rintro rfl
        exact not_holds_rewire hh
      exact absurd hkey' (hp.indexed.of_equivalent?_none he hh hne).1
  · intro key g' hk hr
    exact promotesFreely_of_injective (hp.registerProvisional habs hk hr).indexed.injective owner

/-- In a steady graph the next task passes its checks. -/
theorem Steady.passes {t : Task} (hs : g.Steady (t :: rest)) : g.Passes t := by
  cases t with
  | refine old new => exact absurd List.mem_cons_self (hs.begun old new)
  | abort f => cases hs.fault?_eq_none _ List.mem_cons_self
  | settle old new pending =>
    cases pending with
    | nil => exact hs.attended.observerCount_eq_zero List.mem_cons_self
    | cons o pending =>
      cases o with
      | listener id => trivial
      | owner owner => exact hs.attended.redirects
  | announce ty pending =>
    cases pending with
    | nil => trivial
    | cons o pending =>
      cases o with
      | listener id => trivial
      | owner owner =>
        exact ⟨hs.attended.holder_of_announce List.mem_cons_self List.mem_cons_self,
          promotesFreely_of_injective hs.attended.indexed.injective owner⟩

/-- In a steady graph the next task advances the agenda, or rewires an owner whose refinement comes
next. -/
theorem Steady.advance_of_step {t : Task} (hs : g.Steady (t :: rest)) :
    Advance g (t :: rest) (g.step t).events (g.step t).graph ((g.step t).tasks ++ rest) ∨
      ∃ old new owner existing pending, t = .settle old new (.owner owner :: pending) ∧
        g.Collapses owner old new existing ∧
        g.step t = ⟨g.rewire owner old (g.resolve new),
          [.refine owner existing, .settle old new pending], []⟩ :=
  Graph.advance_of_step hs.begun.ne_refine (hs.fault?_eq_none t List.mem_cons_self)
    hs.passes.fault?_step

/-- The states of a refinement: steady, or with a refinement next that leads to a steady state. -/
inductive Sound : Graph → List Task → Prop where
  | steady {g : Graph} {agenda : List Task} (hs : g.Steady agenda) : Sound g agenda
  | beginning {g : Graph} {old new : Handle} {rest : List Task} (hr : g.Refinable old new)
      (hs : (g.begin old new).Steady (g.settling old new :: rest)) :
      Sound g (.refine old new :: rest)

theorem Sound.passes {t : Task} (hs : Sound g (t :: rest)) : g.Passes t := by
  cases hs with
  | steady hs => exact hs.passes
  | beginning hr hs => exact hr

/-- **Progress.** In a sound state the next task leads to a sound state. -/
theorem Sound.step {t : Task} (hs : Sound g (t :: rest)) :
    Sound (g.step t).graph ((g.step t).tasks ++ rest) := by
  cases hs with
  | beginning hr hs =>
    show Sound (g.refineStep _ _).graph ((g.refineStep _ _).tasks ++ rest)
    rw [hr.refineStep_eq]
    exact .steady hs
  | steady hs =>
    rcases hs.advance_of_step with
      hadv | ⟨old, new, owner, existing, pending, rfl, hcollapse, hstep⟩
    · exact .steady (hadv.steady hs)
    · -- the owner is refined next, which its redirection allows
      obtain ⟨key, hk, he⟩ := hcollapse.exists_key
      have hr := (hs.attended.redirects hcollapse.mem_owners).refinable hk he
      rw [hstep]
      exact .beginning hr ((hcollapse.advance hr).steady hs)

end TypeGraph.Graph
