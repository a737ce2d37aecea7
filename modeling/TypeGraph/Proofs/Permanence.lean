import TypeGraph.Proofs.Observers

/-!
# Forward links are permanent

A handle stands for a live type for ever: forward links form no cycle, and nothing that is live
names a type that was replaced. No action takes back a forward link or changes it, so two handles
that stand for one type once will do so in every later graph.
-/

namespace TypeGraph.Graph

/-- The type was replaced by the other. -/
def Forwards (g : Graph) (h k : Handle) : Prop := (g.node h).forward = some k

/-- Each handle leads to a live type, and nothing holds on to a replaced one. -/
structure NothingDangles (g : Graph) : Prop where
  /-- Retired are the types that forward to another. -/
  isRetired_flags_iff : ∀ {h}, (g.node h).flags.isRetired ↔ ∃ k, g.Forwards h k
  acyclic : ∀ {h}, ¬ Relation.TransGen g.Forwards h h
  /-- To resolve a handle is to follow forward links to their end. -/
  forwards_resolve : ∀ {h}, Relation.ReflTransGen g.Forwards h (g.resolve h)
  live_resolve : ∀ {h}, g.Live (g.resolve h)
  resolve_lt : ∀ {h}, h.index < g.size → (g.resolve h).index < g.size
  /-- A retired type has no slots, no observers and no entry in the registry. -/
  empty_of_retired : ∀ {h}, ¬ g.Live h →
    (g.node h).slots = [] ∧ g.observerCount h = 0 ∧ g.registry.entry? h = none
  /-- No slot holds a retired type. -/
  live_of_mem_slots : ∀ {h s}, s ∈ (g.node h).slots → g.Live s
  /-- No entry of the registry is of a retired type, and no key names one. -/
  live_of_mem_entries : ∀ {e}, e ∈ g.registry.entries →
    g.Live e.handle ∧ ∀ p ∈ e.key.parts, g.Live p
  /-- No subscription tracks a retired type. -/
  live_of_tracked : ∀ {id h}, g.tracked? id = some h → g.Live h

/-- The later graph keeps all forward links, so what stood for one type still does. -/
structure Coarsens (g g' : Graph) : Prop where
  forwards : ∀ {h k}, g.Forwards h k → g'.Forwards h k
  not_live : ∀ {h}, ¬ g.Live h → ¬ g'.Live h
  resolve_eq : ∀ {a b}, g.resolve a = g.resolve b → g'.resolve a = g'.resolve b

variable {g g' : Graph} {h k : Handle} {agenda agenda' : List Task} {events : List Event}

/-! ## Forward links form no cycle -/

theorem not_live_iff : ¬ g.Live h ↔ ∃ k, g.Forwards h k := Option.ne_none_iff_exists'

theorem forwards_follow (n : Nat) (h : Handle) :
    Relation.ReflTransGen g.Forwards h (g.follow n h) := by
  induction n generalizing h with
  | zero => exact .refl
  | succ n ih =>
    cases hf : (g.node h).forward with
    | none =>
      rw [follow_of_forward_none hf]
    | some next =>
      rw [follow_of_forward_some hf]
      exact (ih next).head hf

/-- Along a path of forward links all handles stand for one type. -/
theorem ForwardsEnd.resolve_of_forwards (hg : g.ForwardsEnd)
    (hp : Relation.ReflTransGen g.Forwards h k) : g.resolve h = g.resolve k := by
  induction hp with
  | refl => rfl
  | tail _ hf ih => rw [ih, hg.resolve_of_forward_some hf]

/-- What leads to a live type is on no cycle. -/
theorem not_cyclic_of_forwards (hp : Relation.ReflTransGen g.Forwards h k) (hk : g.Live k) :
    ¬ Relation.TransGen g.Forwards h h := by
  induction hp using Relation.ReflTransGen.head_induction_on with
  | refl =>
    intro hcycle
    obtain ⟨next, hf, -⟩ := Relation.TransGen.head'_iff.1 hcycle
    exact not_live_iff.2 ⟨next, hf⟩ hk
  | @head h next hf _ ih =>
    -- a cycle through a handle goes through the next one
    intro hcycle
    obtain ⟨next', hf', hback⟩ := Relation.TransGen.head'_iff.1 hcycle
    obtain rfl : next = next' := Option.some.inj (hf.symm.trans hf')
    exact ih (.tail' hback hf)

/-! ## Nothing names a replaced type -/

theorem Attended.nothingDangles (ha : g.Attended []) (hc : g.Consistent []) :
    g.NothingDangles where
  isRetired_flags_iff := by
    intro h
    rw [Node.isRetired_flags, ← not_live_iff, ← isRetired_eq_false_iff, Bool.not_eq_false]
  acyclic := not_cyclic_of_forwards (forwards_follow g.size _) (hc.wellFormed.live_resolve _)
  forwards_resolve := forwards_follow g.size _
  live_resolve := hc.wellFormed.live_resolve _
  resolve_lt := hc.wellFormed.resolve_lt
  empty_of_retired := by
    intro h hl
    refine ⟨hc.wellFormed.slots_of_retired hl, ?_, ?_⟩
    · exact ha.observersExact.observerCount_eq_zero fun hh => hl hh.1
    · exact Registry.entry?_eq_none_iff.2 fun hh => hl (hc.indexed.live_of_holds hh)
  live_of_mem_slots := hc.live_of_mem_slots
  live_of_mem_entries := by
    intro e he
    have hd := hc.indexed.describes e he
    refine ⟨hd.live, fun p hp => ?_⟩
    rw [hd.key_eq] at hp
    exact hc.live_of_mem_slots hp
  live_of_tracked := ha.live_of_tracked

/-! ## Forward links are kept -/

/-- A later graph that keeps all forward links resolves alike what was resolved alike. -/
theorem coarsens_of_forwards (hg' : g'.ForwardsEnd)
    (hf : ∀ {h k}, g.Forwards h k → g'.Forwards h k) : g.Coarsens g' where
  forwards := hf
  not_live := fun hl =>
    have ⟨k, hk⟩ := not_live_iff.1 hl
    not_live_iff.2 ⟨k, hf hk⟩
  resolve_eq := by
    intro a b hab
    have hpath : ∀ h, g'.resolve h = g'.resolve (g.resolve h) := fun h =>
      hg'.resolve_of_forwards (Relation.ReflTransGen.mono (fun _ _ => hf) _ _
        (forwards_follow g.size h))
    rw [hpath a, hab, ← hpath b]

theorem forwards_congr (hf : (g'.node h).forward = (g.node h).forward) (hh : g.Forwards h k) :
    g'.Forwards h k := hf.trans hh

theorem forwards_begin {old new : Handle} (hr : g.Refinable old new) (hh : g.Forwards h k) :
    (g.begin old new).Forwards h k := by
  have hne : h ≠ old := by
    rintro rfl
    exact not_live_iff.2 ⟨k, hh⟩ hr.forward_eq
  unfold Forwards
  rw [forward_begin hr, if_neg hne]
  exact hh

theorem Advance.forwards (hx : Advance g agenda events g' agenda') (hh : g.Forwards h k) :
    g'.Forwards h k := by
  cases hx with
  | settled | pass | announced | hear => exact hh
  | move => exact forwards_congr (Node.forward_of_bare (bare_moveListener ..)) hh
  | collapse ho hg hk he hr =>
    subst hg
    exact forwards_begin hr (forwards_congr (forward_rewire ..) hh)
  | keep ho hg hk he hr =>
    subst hg
    obtain ⟨rfl, -, -⟩ := registerProvisional_eq_ok hr
    refine forwards_congr (forward_promote ..) ?_
    exact forwards_congr (forward_rewire ..) hh
  | promote => exact forwards_congr (forward_promote ..) hh

/-- No effect takes back a forward link. -/
theorem Effect.forwards (hx : Effect g g') (hc : g.Consistent []) (hh : g.Forwards h k) :
    g'.Forwards h k := by
  cases hx with
  | intern hk => exact forwards_congr (forward_intern hk h) hh
  | placeholder => exact forwards_congr (forward_push rfl h) hh
  | refine hlt hr =>
    exact (hc.refine_induction hlt hr (fun href => forwards_begin href hh)
      fun _ hh hx => hx.forwards hh).2
  | subscribe hs => exact forwards_congr (Node.forward_of_bare (bare_subscribe hs h)) hh
  | unsubscribe hu => exact forwards_congr (Node.forward_of_bare (bare_unsubscribe hu h)) hh
  | nothing => exact hh

theorem Leads.forwards (hl : Leads g g') (hg : Reachable g) (hh : g.Forwards h k) :
    g'.Forwards h k := by
  induction hl with
  | refl => exact hh
  | perform hl ha hp ih =>
    have hc := (hl.reachable hg).consistent
    exact (effect_of_perform hc.wellFormed ha hp).forwards hc ih

/-- **Permanence.** In a reachable graph nothing names a replaced type, and every graph that it
leads to resolves alike what it resolves alike. -/
theorem Reachable.forwarding_permanent (hg : Reachable g) :
    g.NothingDangles ∧ ∀ {g'}, Leads g g' → g.Coarsens g' := by
  refine ⟨hg.attended.nothingDangles hg.consistent, fun hl => ?_⟩
  exact coarsens_of_forwards (hl.reachable hg).consistent.wellFormed.forwardsEnd (hl.forwards hg)

set_option maxRecDepth 10000 in
/-- One placeholder replaced by another, which merges the pointers to them, and later the other one
by a structure that holds itself through the pointer. -/
theorem forwarding_permanent_placeholders : ∃ g g', initial.play
    [.placeholder, .placeholder, .pointer ⟨9⟩, .pointer ⟨10⟩, .subscribe ⟨9⟩,
      .refine ⟨9⟩ ⟨10⟩] = some g ∧
    g.play [.struct [.i32, ⟨11⟩] false, .refine ⟨10⟩ ⟨13⟩] = some g' ∧
    g.NothingDangles ∧ g.Coarsens g' ∧ g.resolve ⟨9⟩ = g.resolve ⟨10⟩ ∧
    g'.resolve ⟨9⟩ = ⟨13⟩ ∧ g'.resolve ⟨9⟩ = g'.resolve ⟨10⟩ := by
  have h : ((initial.play
      [.placeholder, .placeholder, .pointer ⟨9⟩, .pointer ⟨10⟩, .subscribe ⟨9⟩,
        .refine ⟨9⟩ ⟨10⟩]).map fun g =>
      (g.resolve ⟨9⟩, g.resolve ⟨10⟩,
        (g.play [.struct [.i32, ⟨11⟩] false, .refine ⟨10⟩ ⟨13⟩]).map fun g' =>
          g'.resolve ⟨9⟩)) = some (⟨10⟩, ⟨10⟩, some ⟨13⟩) := by cbv
  obtain ⟨g, hg, heq⟩ := Option.map_eq_some_iff.1 h
  simp only [Prod.mk.injEq] at heq
  obtain ⟨hfrom, hto, hlater⟩ := heq
  obtain ⟨g', hg', hresolve⟩ := Option.map_eq_some_iff.1 hlater
  have hsame : g.resolve ⟨9⟩ = g.resolve ⟨10⟩ := hfrom.trans hto.symm
  obtain ⟨hnothing, hcoarsens⟩ := (Reachable.initial.play hg).forwarding_permanent
  have hkept := hcoarsens (leads_of_play hg')
  exact ⟨g, g', hg, hg', hnothing, hkept, hsame, hresolve, hkept.resolve_eq hsame⟩

end TypeGraph.Graph
