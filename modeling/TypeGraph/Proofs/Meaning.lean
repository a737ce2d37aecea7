import TypeGraph.Proofs.Histories
import TypeGraph.Proofs.Matching

/-!
# Refinement keeps the meaning of every type

Each advance of a refinement either leaves the targets of all types as they were, or retires a type
in favour of one that unfolds alike. So at the end every handle unfolds as it did when the refined
type was redirected and nothing else had happened yet.
-/

namespace TypeGraph.Graph

/-- The graph in which `old` stands for what `new` stands for, and nothing else changed. -/
def redirected (g : Graph) (old new : Handle) : Graph :=
  g.update old fun n => { n with forward := some (g.resolve new) }

/-- All handles stand for the same types in both graphs, and these have the same shapes and
targets. -/
structure SameTargets (g g' : Graph) : Prop where
  resolve_eq : ∀ h, g'.resolve h = g.resolve h
  shape_eq : ∀ h, (g'.node h).shape = (g.node h).shape
  targets_eq : ∀ h, g'.targets h = g.targets h

variable {g g' : Graph} {h x y old new owner existing : Handle} {agenda agenda' : List Task}
  {events : List Event}

/-! ## Changes that keep the targets -/

theorem SameTargets.sameUnfolding (ht : g.SameTargets g') (h : Handle) :
    g.SameUnfolding g' h h := by
  refine ⟨Eq, ?_, (ht.resolve_eq h).symm⟩
  rintro a _ rfl
  refine ⟨(ht.shape_eq a).symm, fun _ => rfl, ?_⟩
  have heq := ht.targets_eq a
  unfold targets at heq
  rw [← List.forall₂_eq_eq_eq] at heq
  exact (List.forall₂_map_left_iff.1 (List.forall₂_map_right_iff.1 heq)).flip.imp
    fun _ _ hst => hst.symm

theorem SameTargets.of_slots (hs : g'.size = g.size)
    (hf : ∀ k, (g'.node k).forward = (g.node k).forward)
    (hsh : ∀ k, (g'.node k).shape = (g.node k).shape)
    (hsl : ∀ k, (g'.node k).slots = (g.node k).slots) : g.SameTargets g' := by
  refine ⟨resolve_congr hs hf, hsh, fun h => ?_⟩
  unfold targets
  rw [hsl]
  exact List.map_congr_left fun s _ => resolve_congr hs hf s

theorem SameTargets.of_bare (hs : g'.size = g.size)
    (hb : ∀ k, (g'.node k).bare = (g.node k).bare) : g.SameTargets g' :=
  .of_slots hs (fun k => Node.forward_of_bare (hb k))
    (fun k => Node.shape_of_bare (hb k))
    fun k => Node.slots_of_bare (hb k)

theorem SameTargets.trans {g'' : Graph} (h : g.SameTargets g') (h' : g'.SameTargets g'') :
    g.SameTargets g'' where
  resolve_eq k := (h'.resolve_eq k).trans (h.resolve_eq k)
  shape_eq k := (h'.shape_eq k).trans (h.shape_eq k)
  targets_eq k := (h'.targets_eq k).trans (h.targets_eq k)

theorem sameTargets_promote (g : Graph) (start : Handle) : g.SameTargets (g.promote start).1 :=
  .of_slots (size_promote ..) (g.forward_promote start) (g.shape_promote start)
    (g.slots_promote start)

theorem sameTargets_registerProvisional {key : Key} (hr : g.registerProvisional h key = .ok g') :
    g.SameTargets g' := by
  obtain ⟨rfl, -, -⟩ := registerProvisional_eq_ok hr
  exact .of_bare rfl fun _ => rfl

/-- Slots that move from a retired type to its replacement lead where they led. -/
theorem Poised.sameTargets_rewire {pending : List Observer} {rest : List Task}
    (hp : g.Poised (.settle old new pending :: rest)) (owner : Handle) :
    g.SameTargets (g.rewire owner old (g.resolve new)) := by
  obtain ⟨hnew, -, hold⟩ := hp.resolve_settle List.mem_cons_self
  have hres := fun k => g.resolve_rewire owner old (g.resolve new) k
  refine ⟨hres, fun k => shape_rewire .., fun k => ?_⟩
  unfold targets
  rw [List.map_congr_left fun s _ => hres s, slots_rewire]
  split
  · rw [List.map_map]
    refine List.map_congr_left fun s _ => ?_
    rw [Function.comp_apply]
    split
    · next hs => rw [hs, hnew.resolve_eq, hold]
    · rfl
  · rfl

/-! ## Retiring a type in favour of one that unfolds alike -/

theorem SameUnfolding.resolved (h : g.SameUnfolding g' x y) (hwf : g.WellFormed)
    (hwf' : g'.WellFormed) : g.SameUnfolding g' (g.resolve x) (g'.resolve y) := by
  obtain ⟨R, hR, hxy⟩ := h
  refine ⟨R, hR, ?_⟩
  rwa [hwf.forwardsEnd.resolve_resolve, hwf'.forwardsEnd.resolve_resolve]

/-- Retiring a type in favour of one that unfolds alike changes what no handle unfolds to. -/
theorem sameUnfolding_begin (hwf : g.WellFormed) (hr : g.Refinable old new)
    (heq : g.SameUnfolding g old new) (h : Handle) : g.SameUnfolding (g.begin old new) h h := by
  have hres := fun k => resolve_begin hr k hwf
  have hstart : ∀ {a b}, g.SameUnfolding g a b →
      g.SameUnfolding g (g.resolve a) ((g.begin old new).resolve b) := by
    intro a b hab
    rw [hres]
    split
    · next hb =>
      have hab' := hab.resolved hwf hwf
      rw [hb, ← resolve_of_forward_none hr.forward_eq] at hab'
      exact hab'.trans (heq.resolved hwf hwf)
    · exact hab.resolved hwf hwf
  have hend : ∀ k, g.Live ((g.begin old new).resolve k) ∧ (g.begin old new).resolve k ≠ old := by
    intro k
    rw [hres]
    split
    · exact ⟨hwf.live_resolve new, hr.ne⟩
    · next hk => exact ⟨hwf.live_resolve k, hk⟩
  refine ⟨fun x y => g.SameUnfolding g x y ∧ g.Live x ∧ g.Live y ∧ y ≠ old, ?_,
    hstart (.refl g h), hwf.live_resolve h, hend h⟩
  rintro x y ⟨⟨R, hR, hxy⟩, hx, hy, hne⟩
  rw [hx.resolve_eq, hy.resolve_eq] at hxy
  obtain ⟨hs, hu, hf⟩ := hR x y hxy
  refine ⟨?_, hu, ?_⟩
  · rwa [shape_begin hr]
  · rw [slots_begin hr, if_neg hne]
    exact hf.imp fun s t hst =>
      ⟨hstart (a := s) (b := t) ⟨R, hR, hst⟩, hwf.live_resolve s, hend t⟩

/-- Live types of one structure unfold alike. -/
theorem sameUnfolding_of_key_eq (hx : g.Live x) (hy : g.Live y) (hu : (g.node x).kind.isUniqued)
    (hk : (g.node x).key = (g.node y).key) : g.SameUnfolding g x y := by
  unfold Node.key at hk
  rw [Key.mk.injEq] at hk
  refine ⟨fun a b => a = b ∨ a = x ∧ b = y, ?_, ?_⟩
  · rintro a b (rfl | ⟨rfl, rfl⟩)
    · exact ⟨rfl, fun _ => rfl, List.forall₂_same.2 fun _ _ => .inl rfl⟩
    · refine ⟨hk.1, fun hn => ?_, ?_⟩
      · rw [hu] at hn
        cases hn
      · rw [hk.2]
        exact List.forall₂_same.2 fun _ _ => .inl rfl
  · rw [hx.resolve_eq, hy.resolve_eq]
    exact .inr ⟨rfl, rfl⟩

/-- What an owner collapses into unfolds as the owner does. -/
theorem Indexed.sameUnfolding_of_equivalent? (hi : g.Indexed) (hl : g.Live owner) {key : Key}
    (hk : g.keyOfNode owner = .ok key) (he : g.equivalent? owner key = some existing) :
    g.SameUnfolding g owner existing := by
  obtain ⟨hu, rfl⟩ := keyOfNode_eq_ok hk
  obtain ⟨hh, -, hkey | ⟨-, hmatch⟩⟩ := hi.of_equivalent? he
  · exact sameUnfolding_of_key_eq hl (hi.live_of_holds hh) hu hkey.symm
  · exact sameUnfolding_of_typesMatch hmatch

/-! ## Refinement -/

/-- Before the first advance only the refined type was redirected. -/
theorem sameUnfolding_redirected (hwf : g.WellFormed) (hr : g.Refinable old new)
    (hlt : new.index < g.size) (h : Handle) :
    (g.redirected old new).SameUnfolding (g.begin old new) h h := by
  have hnode : ∀ k, k ≠ old → (g.redirected old new).node k = g.node k := fun k hk =>
    node_update_of_ne _ (Ne.symm hk)
  have hforward : ∀ k, ((g.begin old new).node k).forward =
      ((g.redirected old new).node k).forward := by
    intro k
    rw [forward_begin hr]
    split
    · next hk =>
      rw [hk]
      unfold redirected
      rw [node_update_self _ hr.old_lt]
    · next hk => rw [hnode k hk]
  have hres : ∀ k, (g.begin old new).resolve k = (g.redirected old new).resolve k :=
    resolve_congr ((size_retire ..).trans (size_update ..).symm) hforward
  have hne : ∀ k, (g.redirected old new).resolve k ≠ old := by
    intro k hk
    have hlive := (hwf.begin hr hlt).live_resolve k
    rw [hres, hk] at hlive
    exact ((live_begin hr old).1 hlive).1 rfl
  refine ⟨fun x y => x = y ∧ x ≠ old, ?_, (hres h).symm, hne h⟩
  rintro x _ ⟨rfl, hx⟩
  refine ⟨?_, fun _ => rfl, ?_⟩
  · rw [hnode x hx, shape_begin hr]
  · rw [hnode x hx, slots_begin hr, if_neg hx]
    exact List.forall₂_same.2 fun s _ => ⟨(hres s).symm, hne s⟩

/-- Each advance keeps what every handle unfolds to. -/
theorem Advance.sameUnfolding (ha : Advance g agenda events g' agenda') (hc : g.Consistent agenda)
    (h : Handle) : g.SameUnfolding g' h h := by
  cases ha with
  | settled | pass | announced | hear => exact .refl g h
  | move =>
    exact (SameTargets.of_bare (size_moveListener ..) fun k =>
      bare_moveListener _ _ _ k _).sameUnfolding h
  | collapse ho hg hk he hr =>
    subst hg
    have hp := hc.toPoised.rewire ho
    exact ((hc.toPoised.sameTargets_rewire _).sameUnfolding h).trans
      (sameUnfolding_begin hp.wellFormed hr
        (hp.indexed.sameUnfolding_of_equivalent? hr.forward_eq hk he) h)
  | keep ho hg hk he hr =>
    subst hg
    exact (((hc.toPoised.sameTargets_rewire _).trans (sameTargets_registerProvisional hr)).trans
      (sameTargets_promote _ _)).sameUnfolding h
  | promote => exact (sameTargets_promote g _).sameUnfolding h

/-- **Meaning.** A refinement of a reachable graph keeps the meaning of every handle: it unfolds as
it did when the refined type was redirected to its replacement, and nothing else had changed. So
types that become one had one meaning. -/
theorem Reachable.sameUnfolding_refine (hg : Reachable g) (hnew : new.index < g.size)
    (h : g.refine old new = .ok (g', events)) :
    (∀ t, (g.redirected old new).SameUnfolding g' t t) ∧
      ∀ a b, g'.resolve a = g'.resolve b →
        (g.redirected old new).SameUnfolding (g.redirected old new) a b := by
  have hc := hg.consistent
  have hkeep : ∀ t, (g.redirected old new).SameUnfolding g' t t := fun t =>
    (hc.refine_induction (P := fun g' _ => (g.redirected old new).SameUnfolding g' t t) hnew h
      (fun hr => sameUnfolding_redirected hc.wellFormed hr hnew t)
      fun hc' ht ha => ht.trans (ha.sameUnfolding hc' t)).2
  refine ⟨hkeep, fun a b heq => (hkeep a).trans ?_⟩
  obtain ⟨R, hR, hb⟩ := (hkeep b).symm
  exact ⟨R, hR, by rwa [heq]⟩

set_option maxRecDepth 10000 in
/-- A list closed through a second placeholder becomes the first list, which has its meaning. -/
theorem sameUnfolding_lists : ∃ g g' events, initial.play
    [.placeholder, .pointer ⟨9⟩, .struct [.i32, ⟨10⟩] false, .refine ⟨9⟩ ⟨11⟩,
      .placeholder, .pointer ⟨12⟩, .struct [.i32, ⟨13⟩] false] = some g ∧
    g.refine ⟨12⟩ ⟨14⟩ = .ok (g', events) ∧ g'.resolve ⟨14⟩ = ⟨11⟩ ∧
    (g.redirected ⟨12⟩ ⟨14⟩).SameUnfolding (g.redirected ⟨12⟩ ⟨14⟩) ⟨14⟩ ⟨11⟩ := by
  have h : ((initial.play
      [.placeholder, .pointer ⟨9⟩, .struct [.i32, ⟨10⟩] false, .refine ⟨9⟩ ⟨11⟩,
        .placeholder, .pointer ⟨12⟩, .struct [.i32, ⟨13⟩] false]).bind fun g =>
      (g.refine ⟨12⟩ ⟨14⟩).toOption.map fun out =>
        (out.1.resolve ⟨14⟩, out.1.resolve ⟨11⟩, decide (14 < g.size))) =
      some (⟨11⟩, ⟨11⟩, true) := by cbv
  obtain ⟨g, hg, h⟩ := Option.bind_eq_some_iff.1 h
  obtain ⟨⟨g', events⟩, hr, h⟩ := Option.map_eq_some_iff.1 h
  simp only [Prod.mk.injEq, decide_eq_true_eq] at h
  obtain ⟨h14, h11, hlt⟩ := h
  have hr' : g.refine ⟨12⟩ ⟨14⟩ = .ok (g', events) := by
    cases hout : g.refine ⟨12⟩ ⟨14⟩ with
    | error f =>
      rw [hout] at hr
      cases hr
    | ok out =>
      rw [hout] at hr
      cases hr
      rfl
  exact ⟨g, g', events, hg, hr', h14,
    ((Reachable.initial.play hg).sameUnfolding_refine hlt hr').2 _ _ (h14.trans h11.symm)⟩

end TypeGraph.Graph
