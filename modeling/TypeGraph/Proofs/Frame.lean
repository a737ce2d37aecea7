import TypeGraph.Proofs.Abstractness
import TypeGraph.Proofs.Identity
import TypeGraph.Proofs.Permanence
import TypeGraph.Proofs.Safety

/-!
# What a refinement leaves alone

A refinement writes to the types that hold a replaced type, and to those that it makes concrete. So
it leaves alone a set of types that hold only live types of the set, as long as the abstract ones
among them have their placeholder in the set as well: that keeps them from being promoted. What does
not reach the refined type is such a set.

`Sound.untouched`: a run leaves a secluded set alone. `Reachable.frame_refine`: a refinement changes
only what reached the refined type.
-/

namespace TypeGraph.Graph

/-- The type and its entry in the registry are as they were, its observers aside. -/
structure Untouched (g g' : Graph) (t : Handle) : Prop where
  bare_eq : (g'.node t).bare = (g.node t).bare
  entry?_eq : g'.registry.entry? t = g.registry.entry? t

/-- The types of the set hold only live types of the set, and the abstract ones reach a placeholder
there. -/
structure Secluded (g : Graph) (U : Handle → Prop) : Prop where
  live : ∀ {t s}, U t → s ∈ (g.node t).slots → g.Live s
  closed : ∀ {t s}, U t → s ∈ (g.node t).slots → U s
  delayed : ∀ {t}, U t → (g.node t).isAbstract → g.Delayed (fun _ => False) t

variable {g g' g'' : Graph} {t old new owner start : Handle} {agenda agenda' rest : List Task}
  {events : List Event} {U : Handle → Prop}

/-! ## Single changes -/

theorem Untouched.refl (g : Graph) (t : Handle) : g.Untouched g t := ⟨rfl, rfl⟩

theorem Untouched.trans (h : g.Untouched g' t) (h' : g'.Untouched g'' t) : g.Untouched g'' t :=
  ⟨h'.bare_eq.trans h.bare_eq, h'.entry?_eq.trans h.entry?_eq⟩

theorem Untouched.live_iff (h : g.Untouched g' t) : g'.Live t ↔ g.Live t := live_of_bare h.bare_eq

theorem untouched_rewire (hne : t ≠ owner) (old new : Handle) :
    g.Untouched (g.rewire owner old new) t := by
  constructor
  · unfold rewire
    rw [bare_retarget, if_neg hne]
    rfl
  · unfold rewire
    rw [registry_retarget]
    exact Registry.entry?_remove_of_ne hne

theorem untouched_begin (hr : g.Refinable old new) (hne : t ≠ old) :
    g.Untouched (g.begin old new) t := by
  constructor
  · unfold begin
    rw [bare_retire _ t hr.old_lt, if_neg hne]
  · unfold begin
    rw [registry_retire]
    exact Registry.entry?_remove_of_ne hne

theorem untouched_registerProvisional {key : Key} (hr : g.registerProvisional owner key = .ok g')
    (hne : t ≠ owner) : g.Untouched g' t := by
  obtain ⟨rfl, -, -⟩ := registerProvisional_eq_ok hr
  exact ⟨rfl, Registry.entry?_insert_of_ne hne⟩

theorem untouched_promote (hi : g.Indexed) (hn : t ∉ g.promotable start) :
    g.Untouched (g.promote start).1 t := by
  constructor
  · show ((g.concretizeAll (g.promotable start)).node t).bare = _
    rw [node_concretizeAll, if_neg hn]
  · show Registry.entry? (g.concretizeAll (g.promotable start)).registry t = _
    rw [registry_concretizeAll hi.injective]
    exact Registry.entry?_finalize_of_not_mem hn

theorem untouched_moveListener (g : Graph) (id : ListenerId) (old new t : Handle) :
    g.Untouched (g.moveListener id old new).1 t :=
  ⟨bare_moveListener .., by rw [registry_moveListener]⟩

/-! ## Secluded sets -/

/-- A secluded set stays secluded when its types are as they were. -/
theorem Secluded.of_bare (hs : g.Secluded U)
    (hb : ∀ t, U t → (g'.node t).bare = (g.node t).bare) : g'.Secluded U := by
  have hlive : ∀ {t s}, U t → s ∈ (g.node t).slots → g'.Live s := fun ht hm =>
    (live_of_bare (hb _ (hs.closed ht hm))).2 (hs.live ht hm)
  constructor
  · intro t s ht hm
    rw [Node.slots_of_bare (hb t ht)] at hm
    exact hlive ht hm
  · intro t s ht hm
    rw [Node.slots_of_bare (hb t ht)] at hm
    exact hs.closed ht hm
  · intro t ht ha
    rw [Node.isAbstract_of_bare (hb t ht)] at ha
    have hd := hs.delayed ht ha
    clear ha
    induction hd with
    | placeholder hp =>
      exact .placeholder (isPlaceholder_of_shape (Node.shape_of_bare (hb _ ht)) hp)
    | stale hm hl => exact absurd (hs.live ht hm) hl
    | due hu => exact hu.elim
    | @step u s hm ha _ ih =>
      refine .step (s := s) ?_ ?_ (ih (hs.closed ht hm))
      · rwa [Node.slots_of_bare (hb u ht)]
      · rwa [Node.isAbstract_of_bare (hb s (hs.closed ht hm))]

/-- The placeholder that a type of the set reaches keeps it from being promoted. -/
theorem Secluded.not_mem_promotable (hs : g.Secluded U) (hwf : g.WellFormed) (ht : U t) :
    t ∉ g.promotable start := by
  intro hm
  obtain ⟨hall, hreach, ha⟩ := mem_promotable.1 hm
  have hd := hs.delayed ht ha
  clear hm
  induction hd with
  | placeholder hp =>
    rw [(blocks_eq_false_iff.1 (hall _ hreach)).1] at hp
    cases hp
  | stale hm hl => exact hl (hs.live ht hm)
  | due hu => exact hu
  | @step u s hm hs' _ ih =>
    refine ih (hs.closed ht hm) ?_ hs'
    exact mem_abstractReach.2 (.step (mem_abstractReach.1 hreach) (mem_abstractSlots.2 ⟨ha, hm⟩)
      (hwf.slots_lt hm))

/-- Concrete types hold only live concrete types. -/
theorem WellFormed.secluded_concrete (hwf : g.WellFormed) :
    g.Secluded fun t => (g.node t).isAbstract = false where
  live := hwf.live_of_concrete
  closed := hwf.concrete_of_concrete
  delayed := fun hc ha => by
    rw [hc] at ha
    cases ha

/-- With no task left, what does not reach a type is secluded. -/
theorem Reachable.secluded_not_reaches (hg : Reachable g) (old : Handle) :
    g.Secluded fun t => ¬ g.Reaches t old where
  live := fun _ hm => hg.consistent.live_of_mem_slots hm
  closed := by
    intro t s ht hm hr
    refine ht (.step ?_ hr)
    rwa [hg.consistent.targets_eq]
  delayed := fun _ ha => hg.allDelayed _ ha

/-! ## Runs -/

/-- An advance leaves a secluded set alone: its types are no owners of a replaced type, and are not
promoted. -/
theorem Advance.untouched (ha : Advance g agenda events g' agenda') (hc : g.Consistent agenda)
    (hs : g.Secluded U) (ht : U t) : g.Untouched g' t := by
  have htold : ∀ {old new owner pending rest}, agenda = .settle old new pending :: rest →
      owner ∈ (g.node old).owners → t ≠ owner := by
    rintro old new owner pending rest rfl ho rfl
    exact hc.not_live_of_settle List.mem_cons_self (hs.live ht (hc.owners.mem_slots ho))
  cases ha with
  | settled | pass | announced | hear => exact .refl g t
  | move => exact untouched_moveListener ..
  | collapse ho hg hk he hr =>
    subst hg
    have hne := htold rfl ho
    exact (untouched_rewire hne _ _).trans (untouched_begin hr hne)
  | @keep _ g₂ old new owner _ _ _ ho hg hk he hr =>
    subst hg
    have hp : g₂.Poised _ := (hc.toPoised.rewire ho).registerProvisional
      (hc.toPoised.isAbstract_told ho) hk hr
    have hkeep : ∀ u, U u → g.Untouched g₂ u := by
      intro u hu
      have hne : u ≠ owner := by
        rintro rfl
        exact hc.not_live_of_settle List.mem_cons_self (hs.live hu (hc.owners.mem_slots ho))
      exact (untouched_rewire hne _ _).trans (untouched_registerProvisional hr hne)
    have hs₂ : g₂.Secluded U := hs.of_bare fun u hu => (hkeep u hu).bare_eq
    exact (hkeep t ht).trans
      (untouched_promote hp.indexed (hs₂.not_mem_promotable hp.wellFormed ht))
  | promote =>
    exact untouched_promote hc.indexed (hs.not_mem_promotable hc.wellFormed ht)

theorem Advance.size_eq (ha : Advance g agenda events g' agenda') : g'.size = g.size := by
  cases ha with
  | settled | pass | announced | hear => rfl
  | move => exact size_moveListener ..
  | collapse _ hg =>
    subst hg
    exact (size_retire ..).trans (size_rewire ..)
  | keep _ hg _ _ hr =>
    subst hg
    obtain ⟨rfl, -, -⟩ := registerProvisional_eq_ok hr
    exact (size_promote ..).trans (size_rewire ..)
  | promote => exact size_promote ..

/-- No advance changes what a type is at its head. -/
theorem Advance.shape_eq (ha : Advance g agenda events g' agenda') (t : Handle) :
    (g'.node t).shape = (g.node t).shape := by
  cases ha with
  | settled | pass | announced | hear => rfl
  | move => exact Node.shape_of_bare (bare_moveListener ..)
  | collapse _ hg _ _ hr =>
    subst hg
    exact (shape_begin hr t).trans (shape_rewire ..)
  | keep _ hg _ _ hr =>
    subst hg
    obtain ⟨rfl, -, -⟩ := registerProvisional_eq_ok hr
    exact (shape_promote ..).trans (shape_rewire ..)
  | promote => exact shape_promote ..

/-- **Seclusion.** A run leaves a secluded set alone, if it does not begin with a refinement of one
of its types. -/
theorem Sound.untouched {heard : List Event} {out : Graph × List Event} (hs : Sound g agenda)
    (h : g.run agenda heard = .ok out) (hU : g.Secluded U)
    (hbegin : ∀ old new rest, agenda = .refine old new :: rest → ¬ U old) (ht : U t) :
    g.Untouched out.1 t := by
  obtain ⟨hbegun, hrefine⟩ := run_induction
    (P := fun g₁ agenda _ => g₁.Consistent agenda ∧ ∀ u, U u → g.Untouched g₁ u)
    (fun ⟨hc, hkeep⟩ hadv => ⟨hadv.consistent hc, fun u hu => (hkeep u hu).trans
      (hadv.untouched hc (hU.of_bare fun v hv => (hkeep v hv).bare_eq) hu)⟩) g agenda heard h
  cases hs with
  | steady hs => exact (hbegun hs.begun ⟨hs.consistent, fun u _ => .refl g u⟩).2 t ht
  | @beginning old new rest hr hs =>
    have hold : ¬ U old := hbegin old new rest rfl
    refine (hrefine old new rest rfl hs.begun.tail fun _ => ⟨hs.consistent, fun u hu => ?_⟩).2 t ht
    apply untouched_begin hr
    rintro rfl
    exact hold hu

/-! ## Refinements -/

/-- A refinement retired its type in favour of another, and changed only what reached it. -/
structure Framed (g g' : Graph) (old new : Handle) : Prop where
  not_live : ¬ g'.Live old
  observers_eq : g'.observers old = []
  observerCount_eq : g'.observerCount old = 0
  resolve_eq : g'.resolve old = g'.resolve new
  /-- No type was made. -/
  size_eq : g'.size = g.size
  /-- A live type that did not reach the refined type has the same structure, flags and entry in the
  registry as before. -/
  untouched : ∀ {t}, g.Live t → ¬ g.Reaches t old →
    g.Untouched g' t ∧ (g'.node t).flags = (g.node t).flags
  /-- Whatever else was retired reached the refined type. -/
  reaches_of_retired : ∀ {t}, g.Live t → ¬ g'.Live t → t ≠ old → g.Reaches t old

theorem Untouched.flags_eq (h : g.Untouched g' t) : (g'.node t).flags = (g.node t).flags := by
  unfold Node.flags Node.isPlaceholder Node.isRetired Node.kind
  rw [Node.isAbstract_of_bare h.bare_eq, Node.shape_of_bare h.bare_eq,
    Node.forward_of_bare h.bare_eq]

/-- A refinement that succeeds is one that nothing speaks against. -/
theorem refinable_of_refine (h : g.refine old new = .ok (g', events)) : g.Refinable old new := by
  rcases g.refinable_or_misused old new with hr | ⟨f, hm⟩
  · exact hr
  · rw [hm.refine_eq] at h
    cases h

theorem Reachable.refine (hg : Reachable g) (hold : old.index < g.size) (hnew : new.index < g.size)
    (h : g.refine old new = .ok (g', events)) : Reachable g' := by
  refine hg.perform (a := .refine old new) (p := ⟨g', .refined (g'.resolve old), events⟩)
    (by simp [Action.handles, hold, hnew]) ?_
  rw [Graph.perform, h]

/-- What does not reach the refined type is as it was before. -/
theorem Reachable.untouched_refine (hg : Reachable g) (hnew : new.index < g.size)
    (h : g.refine old new = .ok (g', events)) (ht : ¬ g.Reaches t old) : g.Untouched g' t := by
  refine (hg.sound (refinable_of_refine h) hnew).untouched h (hg.secluded_not_reaches old) ?_ ht
  rintro _ _ _ heq
  cases heq
  exact fun hn => hn (.refl old)

/-- A refinement leaves concrete types alone. -/
theorem Reachable.untouched_refine_of_concrete (hg : Reachable g) (hnew : new.index < g.size)
    (h : g.refine old new = .ok (g', events)) (ht : (g.node t).isAbstract = false) :
    g.Untouched g' t := by
  have hr := refinable_of_refine h
  refine (hg.sound hr hnew).untouched h hg.consistent.wellFormed.secluded_concrete ?_ ht
  rintro _ _ _ heq
  cases heq
  simp [hr.isAbstract]

theorem Reachable.shape_refine (hg : Reachable g) (hnew : new.index < g.size)
    (h : g.refine old new = .ok (g', events)) (t : Handle) :
    (g'.node t).shape = (g.node t).shape :=
  (hg.consistent.refine_induction (P := fun g₁ _ => (g₁.node t).shape = (g.node t).shape) hnew h
    (fun hr => shape_begin hr t) fun _ hs hx => (hx.shape_eq t).trans hs).2

/-- A refinement makes no type. -/
theorem Reachable.size_refine (hg : Reachable g) (hnew : new.index < g.size)
    (h : g.refine old new = .ok (g', events)) : g'.size = g.size :=
  (hg.consistent.refine_induction (P := fun g₁ _ => g₁.size = g.size) hnew h
    (fun _ => size_retire ..) fun _ hs hx => hx.size_eq.trans hs).2

theorem Reachable.coarsens_refine (hg : Reachable g) (hnew : new.index < g.size)
    (h : g.refine old new = .ok (g', events)) : g.Coarsens g' :=
  have hx : Effect g g' := .refine hnew h
  coarsens_of_forwards (hx.changes.consistent hg.consistent).wellFormed.forwardsEnd
    (hx.forwards hg.consistent)

/-- The refined type forwards to what its replacement stood for. -/
theorem Reachable.forwards_refine (hg : Reachable g) (hnew : new.index < g.size)
    (h : g.refine old new = .ok (g', events)) : g'.Forwards old (g.resolve new) :=
  (hg.consistent.refine_induction hnew h
    (fun hr => by
      unfold Forwards
      rw [forward_begin hr, if_pos rfl])
    fun _ hh hx => hx.forwards hh).2

/-- What does not reach the refined type reaches no more than before. -/
theorem Reachable.reaches_of_reaches_refine (hg : Reachable g) (hnew : new.index < g.size)
    (h : g.refine old new = .ok (g', events)) {s : Handle} (hr : g'.Reaches t s)
    (ht : ¬ g.Reaches t old) : g.Reaches t s := by
  have hg' : Reachable g' := hg.refine (refinable_of_refine h).old_lt hnew h
  induction hr with
  | refl => exact .refl _
  | step hb _ ih =>
    rw [hg'.consistent.targets_eq, Node.slots_of_bare (hg.untouched_refine hnew h ht).bare_eq,
      ← hg.consistent.targets_eq] at hb
    exact .step hb (ih fun hr => ht (.step hb hr))

/-- **Frame.** A refinement of a reachable graph retires its type, which stands for the replacement
from then on, and makes no type. A live type that did not reach the refined type keeps all but its
observers. -/
theorem Reachable.frame_refine (hg : Reachable g) (hnew : new.index < g.size)
    (h : g.refine old new = .ok (g', events)) : g.Framed g' old new := by
  have hr := refinable_of_refine h
  have hg' : Reachable g' := hg.refine hr.old_lt hnew h
  have hforwards := hg.forwards_refine hnew h
  have hretired : ¬ g'.Live old := not_live_iff.2 ⟨_, hforwards⟩
  have hexact := hg'.attended.observersExact
  have huntouched : ∀ {t}, ¬ g.Reaches t old → g.Untouched g' t := hg.untouched_refine hnew h
  constructor
  · exact hretired
  · exact (hexact.eq_nil fun hl => hretired hl.1).2.2
  · exact hexact.observerCount_eq_zero fun hl => hretired hl.1
  · rw [hg'.consistent.wellFormed.forwardsEnd.resolve_of_forward_some hforwards]
    apply (hg.coarsens_refine hnew h).resolve_eq
    exact hg.consistent.wellFormed.forwardsEnd.resolve_resolve new
  · exact hg.size_refine hnew h
  · exact fun _ ht => ⟨huntouched ht, (huntouched ht).flags_eq⟩
  · intro t hl hl' _
    by_contra ht
    exact hl' ((huntouched ht).live_iff.2 hl)

set_option maxRecDepth 10000 in
/-- One placeholder replaced by another. The pointer to it collapses into the other pointer, which
is as it was but for one observer more. -/
theorem frame_refine_placeholders : ∃ g g' events, initial.play
    [.placeholder, .placeholder, .pointer ⟨9⟩, .pointer ⟨10⟩, .struct [⟨11⟩, ⟨12⟩] false] = some g ∧
    g.refine ⟨9⟩ ⟨10⟩ = .ok (g', events) ∧ g.Framed g' ⟨9⟩ ⟨10⟩ ∧
    ¬ g.Reaches ⟨12⟩ ⟨9⟩ ∧ g.Untouched g' ⟨12⟩ ∧ g.observerCount ⟨12⟩ = 1 ∧
    g'.observerCount ⟨12⟩ = 2 ∧ g'.resolve ⟨11⟩ = ⟨12⟩ := by
  have h : ((initial.play
      [.placeholder, .placeholder, .pointer ⟨9⟩, .pointer ⟨10⟩,
        .struct [⟨11⟩, ⟨12⟩] false]).bind fun g =>
      (g.refine ⟨9⟩ ⟨10⟩).toOption.map fun out =>
        (out.1.resolve ⟨11⟩, out.1.observerCount ⟨12⟩, g.observerCount ⟨12⟩, g.size,
          (g.node ⟨12⟩).forward, (reachFrom g.size g.targets (g.targets ⟨12⟩)).contains ⟨9⟩)) =
      some (⟨12⟩, 2, 1, 14, none, false) := by cbv
  obtain ⟨g, hg, h⟩ := Option.bind_eq_some_iff.1 h
  obtain ⟨⟨g', events⟩, hr, h⟩ := Option.map_eq_some_iff.1 h
  simp only [Prod.mk.injEq] at h
  obtain ⟨hcollapse, hafter, hbefore, hsize, hlive, havoid⟩ := h
  have hreach : Reachable g := Reachable.initial.play hg
  have hrefine : g.refine ⟨9⟩ ⟨10⟩ = .ok (g', events) := eq_ok_of_toOption hr
  have hnot : ¬ g.Reaches ⟨12⟩ ⟨9⟩ :=
    not_reaches_of_contains hreach.consistent.wellFormed.targetsBounded (by decide) havoid
  have hframe := hreach.frame_refine (by rw [hsize]; decide) hrefine
  exact ⟨g, g', events, hg, hrefine, hframe, hnot, (hframe.untouched hlive hnot).1, hbefore,
    hafter, hcollapse⟩

end TypeGraph.Graph
