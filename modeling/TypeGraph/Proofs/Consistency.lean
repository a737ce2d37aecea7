import TypeGraph.Proofs.Owners
import TypeGraph.Proofs.Promotion
import TypeGraph.Proofs.Uniquing

/-!
# Consistency of a graph with its agenda

Between two tasks of a refinement the graph is well-formed, its owners are counted, its registry
describes it and holds all that it should, each `settle` task is about a type that forwards to the
replacement, and each slot that still holds a retired type is about to be told.

`Advance.consistent`: each advance keeps all that.
-/

namespace TypeGraph.Graph

/-- What holds of a graph and the tasks left, the owner at hand being out of the registry. -/
structure Poised (g : Graph) (agenda : List Task) : Prop where
  wellFormed : g.WellFormed
  owners : g.OwnersCounted
  indexed : g.Indexed
  forward_of_settle : ∀ {old new pending}, .settle old new pending ∈ agenda →
    (g.node old).forward = some new
  pending_of_owner : ∀ {h o}, ¬ g.Live h → o ∈ (g.node h).owners →
    ∃ new pending, .settle h new pending ∈ agenda ∧ .owner o ∈ pending

/-- What holds of a graph and the tasks left. -/
structure Consistent (g : Graph) (agenda : List Task) : Prop extends Poised g agenda where
  holds : ∀ {h}, g.Live h → (g.node h).kind.isUniqued → g.registry.Holds h

variable {g g' : Graph} {h k old new owner : Handle} {agenda agenda' rest : List Task}
  {events : List Event}

/-- A slot that holds a retired type after slots moved held it before, and is not one of the slots
that moved. -/
theorem mem_slots_rewire {o : Handle} (hnew : g.Live new) (hk : ¬ g.Live k)
    (hs : k ∈ ((g.rewire owner old new).node o).slots) :
    k ∈ (g.node o).slots ∧ ¬ (k = old ∧ o = owner) := by
  rw [slots_rewire] at hs
  split at hs
  · obtain ⟨s, hm, rfl⟩ := List.mem_map.1 hs
    split at hk
    · exact absurd hnew hk
    · next hne =>
      rw [if_neg hne]
      exact ⟨hm, fun h => hne h.1⟩
  · next hne => exact ⟨hs, fun h => hne h.2⟩

namespace Poised

/-- The agenda matters for its `settle` tasks only. -/
theorem of_agenda (hp : g.Poised agenda)
    (hback : ∀ {old new pending}, .settle old new pending ∈ agenda' →
      ∃ pending', .settle old new pending' ∈ agenda)
    (hpending : ∀ {h o new pending}, o ∈ (g.node h).owners → .settle h new pending ∈ agenda →
      .owner o ∈ pending → ∃ pending', .settle h new pending' ∈ agenda' ∧ .owner o ∈ pending') :
    g.Poised agenda' := by
  refine ⟨hp.wellFormed, hp.owners, hp.indexed, fun hm => ?_, fun hl ho => ?_⟩
  · obtain ⟨pending', hm'⟩ := hback hm
    exact hp.forward_of_settle hm'
  · obtain ⟨new, pending, hm, ho'⟩ := hp.pending_of_owner hl ho
    obtain ⟨pending', hm', ho''⟩ := hpending ho hm ho'
    exact ⟨new, pending', hm', ho''⟩

/-- An observer that is not, or no more, an owner of the type is dropped from those to be told. -/
theorem drop {o : Observer} {pending : List Observer}
    (hp : g.Poised (.settle old new (o :: pending) :: rest))
    (ho : ∀ owner ∈ (g.node old).owners, o ≠ .owner owner) :
    g.Poised (.settle old new pending :: rest) := by
  refine hp.of_agenda (fun hm => ?_) fun howner hm hmem => ?_
  · rcases List.mem_cons.1 hm with heq | hm
    · cases heq
      exact ⟨_, List.mem_cons_self⟩
    · exact ⟨_, List.mem_cons_of_mem _ hm⟩
  · rcases List.mem_cons.1 hm with heq | hm
    · cases heq
      rcases List.mem_cons.1 hmem with heq | hmem
      · exact absurd heq.symm (ho _ howner)
      · exact ⟨_, List.mem_cons_self, hmem⟩
    · exact ⟨_, List.mem_cons_of_mem _ hm, hmem⟩

/-- A `settle` task whose observers were all told is done. -/
theorem settled (hp : g.Poised (.settle old new [] :: rest)) : g.Poised rest := by
  refine hp.of_agenda (fun hm => ⟨_, List.mem_cons_of_mem _ hm⟩) fun _ hm hmem => ?_
  rcases List.mem_cons.1 hm with heq | hm
  · cases heq
    cases hmem
  · exact ⟨_, hm, hmem⟩

/-- An `announce` task can change or go. -/
theorem announce {ty : Handle} {pending : List Observer} {l : List Task}
    (hp : g.Poised (.announce ty pending :: rest))
    (ht : ∀ old new pending, .settle old new pending ∉ l) : g.Poised (l ++ rest) := by
  refine hp.of_agenda (fun hm => ?_) fun _ hm hmem => ?_
  · rcases List.mem_append.1 hm with hm | hm
    · exact absurd hm (ht _ _ _)
    · exact ⟨_, List.mem_cons_of_mem _ hm⟩
  · rcases List.mem_cons.1 hm with heq | hm
    · cases heq
    · exact ⟨_, List.mem_append_right _ hm, hmem⟩

theorem congr (hp : g.Poised agenda) (hs : g'.size = g.size) (hr : g'.registry = g.registry)
    (hb : ∀ k, (g'.node k).bare = (g.node k).bare)
    (ho : ∀ k, (g'.node k).owners = (g.node k).owners) : g'.Poised agenda := by
  refine ⟨hp.wellFormed.of_bare hs hb, hp.owners.congr hb ho, hp.indexed.congr hr hb,
    fun hm => ?_, fun hl hm => ?_⟩
  · rw [Node.forward_of_bare (hb _)]
    exact hp.forward_of_settle hm
  · rw [live_of_bare (hb _)] at hl
    rw [ho] at hm
    exact hp.pending_of_owner hl hm

theorem not_live_of_settle (hp : g.Poised agenda) {pending : List Observer}
    (hm : .settle old new pending ∈ agenda) : ¬ g.Live old := by
  unfold Live
  rw [hp.forward_of_settle hm]
  exact Option.some_ne_none _

/-- Who holds a retired type is abstract. -/
theorem isAbstract_of_owner (hp : g.Poised agenda) (hl : ¬ g.Live old)
    (ho : owner ∈ (g.node old).owners) : (g.node owner).isAbstract := by
  rw [← Bool.not_eq_false]
  exact fun ha => hl (hp.wellFormed.live_of_concrete ha (hp.owners.mem_slots ho))

/-- The replacement of a retired type leads to a live type of the arena. -/
theorem resolve_settle (hp : g.Poised agenda) {pending : List Observer}
    (hm : .settle old new pending ∈ agenda) :
    g.Live (g.resolve new) ∧ (g.resolve new).index < g.size ∧ g.resolve old = g.resolve new := by
  have hf := hp.forward_of_settle hm
  exact ⟨hp.wellFormed.live_resolve new, hp.wellFormed.resolve_lt (hp.wellFormed.forward_lt hf),
    hp.wellFormed.forwardsEnd.resolve_of_forward_some hf⟩

/-- An owner is told: its slots move, and it holds the replaced type no more. -/
theorem rewire {pending : List Observer}
    (hp : g.Poised (.settle old new (.owner owner :: pending) :: rest))
    (ho : owner ∈ (g.node old).owners) :
    (g.rewire owner old (g.resolve new)).Poised (.settle old new pending :: rest) := by
  have hold := hp.not_live_of_settle List.mem_cons_self
  have howner := hp.isAbstract_of_owner hold ho
  obtain ⟨hnew, hlt, -⟩ := hp.resolve_settle List.mem_cons_self
  have hwf : (g.unregister owner).WellFormed := hp.wellFormed.of_bare rfl fun _ => rfl
  have hoc : (g.unregister owner).OwnersCounted := hp.owners.congr (fun _ => rfl) fun _ => rfl
  have howners : (g.rewire owner old (g.resolve new)).OwnersCounted := hoc.retarget hold hnew
  refine ⟨hwf.retarget howner hlt old, howners, hp.indexed.rewire owner old _, fun hm => ?_,
    fun {k o} hl hm => ?_⟩
  · rw [forward_rewire]
    rcases List.mem_cons.1 hm with heq | hm
    · cases heq
      exact hp.forward_of_settle List.mem_cons_self
    · exact hp.forward_of_settle (List.mem_cons_of_mem _ hm)
  · have hl' : ¬ g.Live k := fun h => hl ((live_rewire ..).2 h)
    have hbefore := mem_slots_rewire hnew hl' (howners.mem_slots hm)
    obtain ⟨new', pending', hm', ho'⟩ := hp.pending_of_owner hl'
      ((hp.owners.mem_owners_iff (.inr hl')).2 hbefore.1)
    rcases List.mem_cons.1 hm' with heq | hm'
    · cases heq
      rcases List.mem_cons.1 ho' with heq | ho'
      · cases heq
        exact absurd ⟨rfl, rfl⟩ hbefore.2
      · exact ⟨_, _, List.mem_cons_self, ho'⟩
    · exact ⟨_, _, List.mem_cons_of_mem _ hm', ho'⟩

/-- The owner that is told stays abstract when its slots have moved. -/
theorem isAbstract_told {pending : List Observer}
    (hp : g.Poised (.settle old new (.owner owner :: pending) :: rest))
    (ho : owner ∈ (g.node old).owners) :
    ((g.rewire owner old (g.resolve new)).node owner).isAbstract := by
  rw [isAbstract_rewire]
  exact hp.isAbstract_of_owner (hp.not_live_of_settle List.mem_cons_self) ho

theorem registerProvisional {key : Key} (hp : g.Poised agenda) (ha : (g.node h).isAbstract)
    (hk : g.keyOfNode h = .ok key) (hr : g.registerProvisional h key = .ok g') :
    g'.Poised agenda := by
  have hi := hp.indexed.registerProvisional (hp.wellFormed.live_of_isAbstract ha) ha hk hr
  obtain ⟨rfl, -, -⟩ := registerProvisional_eq_ok hr
  exact ⟨hp.wellFormed.of_bare rfl fun _ => rfl, hp.owners.congr (fun _ => rfl) fun _ => rfl, hi,
    hp.forward_of_settle, hp.pending_of_owner⟩

end Poised

namespace Consistent

/-- With no task left no slot holds a retired type. -/
theorem live_of_mem_slots (hc : g.Consistent []) (hs : k ∈ (g.node h).slots) : g.Live k := by
  by_contra hl
  obtain ⟨_, _, hm, _⟩ := hc.pending_of_owner hl ((hc.owners.mem_owners_iff (.inr hl)).2 hs)
  cases hm

/-- Promotion leaves retired types and their owners alone. -/
theorem promote (hc : g.Consistent agenda) (start : Handle) :
    (g.promote start).1.Consistent ((g.promote start).2 ++ agenda) := by
  have hlive : ∀ {k}, (g.promote start).1.Live k ↔ g.Live k := live_promote ..
  refine ⟨⟨hc.wellFormed.promote start,
    hc.owners.concretizeAll fun _ hm => live_of_mem_promotable hm,
    hc.indexed.concretizeAll _, fun {a b p} hm => ?_, fun {k o} hl ho => ?_⟩, fun {k} hl hu => ?_⟩
  · rcases List.mem_append.1 hm with hm | hm
    · obtain ⟨_, _, ht⟩ := List.mem_map.1 hm
      cases ht
    · rw [node_promote_of_retired start (hc.not_live_of_settle hm)]
      exact hc.forward_of_settle hm
  · have hl' := fun h => hl (hlive.2 h)
    rw [node_promote_of_retired start hl'] at ho
    obtain ⟨new, pending, hm, ho'⟩ := hc.pending_of_owner hl' ho
    exact ⟨new, pending, List.mem_append_right _ hm, ho'⟩
  · refine (holds_concretizeAll hc.indexed.injective).2 (hc.holds (hlive.1 hl) ?_)
    rwa [Node.kind, shape_promote] at hu

end Consistent

/-- A type is retired, and all who hold it are about to be told. -/
theorem Poised.begin (hp : g.Poised agenda) (hr : g.Refinable old new) (hlt : new.index < g.size)
    (hholds : ∀ {h}, h ≠ old → g.Live h → (g.node h).kind.isUniqued → g.registry.Holds h) :
    (g.begin old new).Consistent (g.settling old new :: agenda) := by
  refine ⟨⟨hp.wellFormed.begin hr hlt, hp.owners.retire hr.isAbstract _,
    hp.indexed.retire hr.old_lt _, fun {a b p} hm => ?_, fun {k o} hl ho => ?_⟩,
    fun {k} hl hu => ?_⟩
  · rw [forward_begin hr]
    rcases List.mem_cons.1 hm with heq | hmem
    · cases heq
      rw [if_pos rfl]
    · have hne : a ≠ old := by
        rintro rfl
        exact hp.not_live_of_settle hmem hr.forward_eq
      rw [if_neg hne]
      exact hp.forward_of_settle hmem
  · by_cases hk : k = old
    · subst hk
      exact ⟨_, _, List.mem_cons_self, Node.owner_mem_observers.2 ho⟩
    · have hl' : ¬ g.Live k := fun h => hl ((live_begin hr k).2 ⟨hk, h⟩)
      have ho' : o ∈ (g.node k).owners := by
        unfold Graph.begin at ho
        rw [← List.count_pos_iff, count_owners_retire] at ho
        exact List.count_pos_iff.1 (Nat.lt_of_lt_of_le ho (Nat.sub_le _ _))
      obtain ⟨new', pending, hm, ho''⟩ := hp.pending_of_owner hl' ho'
      exact ⟨new', pending, List.mem_cons_of_mem _ hm, ho''⟩
  · obtain ⟨hk, hl⟩ := (live_begin hr k).1 hl
    rw [Node.kind, shape_begin hr] at hu
    unfold Graph.begin
    exact holds_retire (hholds hk hl hu) hk

/-- Graphs that differ in listeners only are consistent together. -/
theorem Consistent.congr (hc : g.Consistent agenda) (hs : g'.size = g.size)
    (hr : g'.registry = g.registry) (hb : ∀ k, (g'.node k).bare = (g.node k).bare)
    (ho : ∀ k, (g'.node k).owners = (g.node k).owners) : g'.Consistent agenda := by
  refine ⟨hc.toPoised.congr hs hr hb ho, fun {h} hl hu => ?_⟩
  rw [live_of_bare (hb h)] at hl
  rw [Node.kind, Node.shape_of_bare (hb h)] at hu
  rw [hr]
  exact hc.holds hl hu

/-- Out of the registry is only the owner whose slots move. -/
theorem Consistent.holds_rewire (hc : g.Consistent agenda) (hne : h ≠ owner)
    (hl : (g.rewire owner old new).Live h) (hu : ((g.rewire owner old new).node h).kind.isUniqued) :
    (g.rewire owner old new).registry.Holds h := by
  rw [live_rewire] at hl
  rw [Node.kind, shape_rewire] at hu
  exact Graph.holds_rewire (hc.holds hl hu) hne

/-- **Consistency.** Each advance keeps the graph consistent with its agenda. -/
theorem Advance.consistent (ha : Advance g agenda events g' agenda') (hc : g.Consistent agenda) :
    g'.Consistent agenda' := by
  cases ha with
  | settled ho => exact ⟨hc.toPoised.settled, hc.holds⟩
  | pass ho =>
    refine ⟨hc.toPoised.drop fun owner howner heq => ?_, hc.holds⟩
    subst heq
    simp [Node.isObservedBy, howner] at ho
  | move ho =>
    have hdrop : g.Consistent _ := ⟨hc.toPoised.drop fun _ _ h => (by cases h), hc.holds⟩
    exact hdrop.congr (size_moveListener ..) (registry_moveListener ..)
      (fun k => bare_moveListener _ _ _ k _) fun k => owners_moveListener _ _ _ k _
  | collapse ho hg hk he hr =>
    subst hg
    have hp := hc.toPoised.rewire ho
    have hlt := hp.indexed.lt_of_holds (hp.indexed.of_equivalent? he).1
    exact hp.begin hr hlt fun hne hl hu => hc.holds_rewire hne hl hu
  | @keep g₁ g₂ old new owner key pending rest ho hg hk he hr =>
    subst hg
    have hp := hc.toPoised.rewire ho
    have habs := hc.toPoised.isAbstract_told ho
    refine Consistent.promote ⟨hp.registerProvisional habs hk hr, fun {h} hl hu => ?_⟩ _
    apply (holds_registerProvisional hr).2
    obtain ⟨rfl, -, -⟩ := registerProvisional_eq_ok hr
    by_cases hh : h = owner
    · exact .inr hh
    · exact .inl (hc.holds_rewire hh hl hu)
  | announced => exact ⟨hc.toPoised.announce (l := []) fun _ _ _ => List.not_mem_nil, hc.holds⟩
  | promote ho =>
    refine Consistent.promote ⟨hc.toPoised.announce (l := [_]) fun _ _ _ hm => ?_, hc.holds⟩ _
    cases List.mem_singleton.1 hm
  | hear =>
    refine ⟨hc.toPoised.announce (l := [_]) fun _ _ _ hm => ?_, hc.holds⟩
    cases List.mem_singleton.1 hm

end TypeGraph.Graph
