import TypeGraph.Proofs.Growth
import TypeGraph.Proofs.Meaning

/-!
# Graphs without cycles

If no refinement ever replaces a type by one that holds it, then no type holds itself, and each is
told by its unfolding. So a refinement carries every other type over: afterwards its handle stands
for the type of the same shape over what its slots stand for then.

1. `TreeReachable.grounded`: in such a graph every path through slots ends.
2. `Grounded.resolve_eq`: there types that unfold alike are one.
3. `Reachable.carries_refine`: so a refinement carries the structure of all types over.
-/

namespace TypeGraph.Graph

/-- The graphs that actions on existing handles lead to, if no type is replaced by one that reaches
it. -/
inductive TreeReachable : Graph → Prop where
  | initial : TreeReachable initial
  | perform {g : Graph} {a : Action} {p : Performed} (hg : TreeReachable g)
      (ha : ∀ h ∈ a.handles, h.index < g.size)
      (hr : ∀ old new, a = .refine old new → ¬ g.Reaches (g.resolve new) old)
      (hp : g.perform a = .ok p) : TreeReachable p.graph

/-- Every path through slots ends. -/
def Grounded (g : Graph) : Prop := WellFounded fun s t => s ∈ g.targets t

/-- The later graph has all types of the earlier one: the handle of each stands for a type of the
same shape over what its slots stand for. Placeholders can stand for any type. -/
structure Carries (g g' : Graph) : Prop where
  size_le : g.size ≤ g'.size
  resolve_resolve : ∀ h, g'.resolve (g.resolve h) = g'.resolve h
  key_eq : ∀ {h}, h.index < g.size → g.Live h → (g.node h).isPlaceholder = false →
    (g'.node (g'.resolve h)).key = ⟨(g.node h).shape, (g.node h).slots.map g'.resolve⟩

variable {g g' g'' : Graph} {a : Action} {p : Performed} {h x y old new : Handle}
  {events : List Event} {R : Handle → Handle → Prop}

theorem TreeReachable.reachable (hg : TreeReachable g) : Reachable g := by
  induction hg with
  | initial => exact .initial
  | perform _ ha _ hp ih => exact ih.perform ha hp

/-! ## Growth keeps paths -/

theorem Extends.targets_eq (hx : g.Extends g') (hwf : g.WellFormed) (hwf' : g'.WellFormed)
    (hh : h.index < g.size) : g'.targets h = g.targets h := by
  unfold targets
  rw [Node.slots_of_bare (hx.untouched hh).bare_eq]
  exact List.map_congr_left fun s hs => hx.resolve_eq hwf hwf' (hwf.slots_lt hs)

/-- A type that was there reaches the same types as before. -/
theorem Extends.reaches_iff (hx : g.Extends g') (hwf : g.WellFormed) (hwf' : g'.WellFormed)
    (hx₀ : x.index < g.size) : g'.Reaches x y ↔ g.Reaches x y := by
  constructor
  · intro hr
    induction hr with
    | refl => exact .refl _
    | step hb _ ih =>
      rw [hx.targets_eq hwf hwf' hx₀] at hb
      exact .step hb (ih (hwf.targetsBounded _ _ hb))
  · intro hr
    induction hr with
    | refl => exact .refl _
    | step hb _ ih =>
      have hlt := hwf.targetsBounded _ _ hb
      rw [← hx.targets_eq hwf hwf' hx₀] at hb
      exact .step hb (ih hlt)

/-- A graph whose new types hold only types that were there stays grounded. -/
theorem Grounded.extend (hg : g.Grounded) (hx : g.Extends g') (hwf : g.WellFormed)
    (hwf' : g'.WellFormed)
    (hnew : ∀ {t s}, g.size ≤ t.index → s ∈ (g'.node t).slots → s.index < g.size) :
    g'.Grounded := by
  have hacc : ∀ t, t.index < g.size → Acc (fun s t => s ∈ g'.targets t) t := by
    intro t
    induction t using hg.induction with
    | _ t ih =>
      intro ht
      refine ⟨t, fun s hs => ?_⟩
      rw [hx.targets_eq hwf hwf' ht] at hs
      exact ih s hs (hwf.targetsBounded _ _ hs)
  refine ⟨fun t => ?_⟩
  by_cases ht : t.index < g.size
  · exact hacc t ht
  · refine ⟨t, fun u hu => ?_⟩
    obtain ⟨s, hs, rfl⟩ := List.mem_map.1 hu
    have hlt := hnew (Nat.le_of_not_lt ht) hs
    apply hacc
    rw [hx.resolve_eq hwf hwf' hlt]
    exact hwf.resolve_lt hlt

theorem Performs.grounded (hp : g.Performs a p) (hg : Reachable g) (hground : g.Grounded)
    (hg' : Reachable p.graph) (ha : ∀ h ∈ a.handles, h.index < g.size)
    (hr : ∀ old new, a ≠ .refine old new) : p.graph.Grounded := by
  have hwf := hg.consistent.wellFormed
  refine hground.extend (hp.extends hwf ha hr) hwf hg'.consistent.wellFormed fun {t s} ht hs => ?_
  have hempty : ∀ {g₁ : Graph}, (∀ k, (g₁.node k).bare = (g.node k).bare) →
      s ∈ (g₁.node t).slots → s.index < g.size := by
    intro g₁ hb hs
    rw [Node.slots_of_bare (hb t)] at hs
    exact absurd (lt_of_mem_slots hs) (Nat.not_lt.2 ht)
  cases hp with
  | @make _ key hk =>
    have hint := internable_of_requested hwf ha hk
    cases hl : g.registry.lookup key with
    | some k =>
      have hsame : (Performed.ofMade (g.intern key)).graph = g :=
        congrArg Prod.snd (intern_of_lookup_some hl)
      rw [hsame] at hs
      exact hempty (fun _ => rfl) hs
    | none =>
      have happ : g.Appends (Performed.ofMade (g.intern key)).graph key.parts :=
        hwf.appends_intern hint hl
      have hlt := lt_of_mem_slots hs
      rw [happ.size_eq] at hlt
      obtain rfl : t = g.next := congrArg Handle.mk (Nat.le_antisymm (Nat.le_of_lt_succ hlt) ht)
      rw [happ.slots_eq] at hs
      exact (hint.parts s hs).1
  | placeholder =>
    have hslots : (g.placeholder.2.node t).slots = if t = g.next then [] else (g.node t).slots := by
      rw [placeholder_eq, node_push]
      split <;> rfl
    have hs' : s ∈ (g.placeholder.2.node t).slots := hs
    rw [hslots] at hs'
    split at hs'
    · cases hs'
    · exact hempty (fun _ => rfl) hs'
  | refine => exact absurd rfl (hr _ _)
  | subscribe hs' => exact hempty (bare_subscribe hs') hs
  | unsubscribe hu => exact hempty (bare_unsubscribe hu) hs
  | decline | ignore => exact hempty (fun _ => rfl) hs

/-! ## Refinement keeps paths finite -/

/-- Once the type is retired all paths through it go on in its replacement, which does not come
back. -/
theorem Grounded.begin (hg : g.Grounded) (hwf : g.WellFormed) (hr : g.Refinable old new)
    (hno : ¬ g.Reaches (g.resolve new) old) : (g.begin old new).Grounded := by
  have hslots : ∀ {t s}, s ∈ ((g.begin old new).node t).slots → t ≠ old ∧ s ∈ (g.node t).slots := by
    intro t s hs
    rw [slots_begin hr] at hs
    split at hs
    · cases hs
    · next ht => exact ⟨ht, hs⟩
  -- what does not reach the retired type has the targets that it had
  have haway : ∀ t, ¬ g.Reaches t old → Acc (fun s t => s ∈ (g.begin old new).targets t) t := by
    intro t
    induction t using hg.induction with
    | _ t ih =>
      intro ht
      refine ⟨t, fun u hu => ?_⟩
      obtain ⟨s, hs, rfl⟩ := List.mem_map.1 hu
      have hmem : g.resolve s ∈ g.targets t := List.mem_map_of_mem (hslots hs).2
      have hs' : ¬ g.Reaches (g.resolve s) old := fun hr => ht (.step hmem hr)
      have hne : g.resolve s ≠ old := by
        rintro rfl
        exact hs' (.refl _)
      rw [resolve_begin hr s hwf, if_neg hne]
      exact ih _ hmem hs'
  refine ⟨fun t => ?_⟩
  induction t using hg.induction with
  | _ t ih =>
    refine ⟨t, fun u hu => ?_⟩
    obtain ⟨s, hs, rfl⟩ := List.mem_map.1 hu
    rw [resolve_begin hr s hwf]
    split
    · exact haway _ hno
    · exact ih _ (List.mem_map_of_mem (hslots hs).2)

/-- A member of the second list is related to one of the first. -/
theorem exists_of_forall₂ {α β : Type} {R : α → β → Prop} {as : List α} {bs : List β} {y : β}
    (hR : List.Forall₂ R as bs) (hy : y ∈ bs) : ∃ x ∈ as, R x y := by
  induction hR with
  | nil => cases hy
  | cons hab _ ih =>
    rcases List.mem_cons.1 hy with rfl | hy
    · exact ⟨_, List.mem_cons_self, hab⟩
    · obtain ⟨x, hx, hxy⟩ := ih hy
      exact ⟨x, List.mem_cons_of_mem _ hx, hxy⟩

/-- A graph in which all handles unfold as in a grounded one is grounded. -/
theorem Grounded.of_sameUnfolding (hg : g.Grounded) (hs : ∀ t, g.SameUnfolding g' t t) :
    g'.Grounded := by
  have hacc : ∀ x R, g.IsBisimulation g' R → ∀ y, R x y → Acc (fun s t => s ∈ g'.targets t) y := by
    intro x
    induction x using hg.induction with
    | _ x ih =>
      intro R hR y hxy
      refine ⟨y, fun u hu => ?_⟩
      obtain ⟨t, ht, rfl⟩ := List.mem_map.1 hu
      obtain ⟨s, hs, hst⟩ := exists_of_forall₂ (hR x y hxy).slots ht
      exact ih _ (List.mem_map_of_mem hs) R hR _ hst
  refine ⟨fun y => ⟨y, fun u hu => ?_⟩⟩
  obtain ⟨t, -, rfl⟩ := List.mem_map.1 hu
  obtain ⟨R, hR, ht⟩ := hs t
  exact hacc _ R hR _ ht

/-- Each advance keeps what every handle unfolds to, so a refinement keeps it from the moment on at
which its type is retired. -/
theorem Reachable.sameUnfolding_begin (hg : Reachable g) (hnew : new.index < g.size)
    (h : g.refine old new = .ok (g', events)) (t : Handle) :
    (g.begin old new).SameUnfolding g' t t :=
  (hg.consistent.refine_induction (P := fun g₁ _ => (g.begin old new).SameUnfolding g₁ t t) hnew h
    (fun _ => .refl _ t) fun hc ht ha => ht.trans (ha.sameUnfolding hc t)).2

theorem Reachable.grounded_refine (hg : Reachable g) (hground : g.Grounded)
    (hnew : new.index < g.size) (h : g.refine old new = .ok (g', events))
    (hno : ¬ g.Reaches (g.resolve new) old) : g'.Grounded :=
  (hground.begin hg.consistent.wellFormed (refinable_of_refine h) hno).of_sameUnfolding
    (hg.sameUnfolding_begin hnew h)

theorem grounded_initial : initial.Grounded := by
  have hall : (initial.handles.all fun h => (initial.node h).slots = []) = true := by cbv
  refine ⟨fun t => ⟨t, fun u hu => ?_⟩⟩
  obtain ⟨s, hs, -⟩ := List.mem_map.1 hu
  have hnil := List.all_eq_true.1 hall t (mem_handles.2 (lt_of_mem_slots hs))
  rw [of_decide_eq_true hnil] at hs
  cases hs

/-- **Grounding.** If no type is replaced by one that reaches it, every path through slots ends. -/
theorem TreeReachable.grounded (hg : TreeReachable g) : g.Grounded := by
  induction hg with
  | initial => exact grounded_initial
  | @perform g a p hg ha hr hp ih =>
    by_cases hrefine : ∃ old new, a = .refine old new
    · obtain ⟨old, new, rfl⟩ := hrefine
      cases performs_of_perform hp with
      | refine h =>
        exact hg.reachable.grounded_refine ih (ha new (by simp [Action.handles])) h (hr _ _ rfl)
      | make hk => cases hk
    · exact (performs_of_perform hp).grounded hg.reachable ih (hg.reachable.perform ha hp) ha
        fun old new heq => hrefine ⟨old, new, heq⟩

/-! ## Types are told by their unfolding -/

theorem eq_of_forall₂ {as bs : List Handle} (hR : List.Forall₂ R as bs)
    (h : ∀ x ∈ as, ∀ y ∈ bs, R x y → x = y) : as = bs := by
  induction hR with
  | nil => rfl
  | cons hab _ ih =>
    rw [h _ List.mem_cons_self _ List.mem_cons_self hab,
      ih fun x hx y hy => h x (List.mem_cons_of_mem _ hx) y (List.mem_cons_of_mem _ hy)]

/-- In a grounded graph types that unfold alike are one. -/
theorem Grounded.resolve_eq (hg : g.Grounded) (hc : g.Consistent [])
    (h : g.SameUnfolding g x y) : g.resolve x = g.resolve y := by
  have heq : ∀ x R, g.IsBisimulation g R → ∀ y, g.Live x → g.Live y → R x y → x = y := by
    intro x
    induction x using hg.induction with
    | _ x ih =>
      intro R hR y hx hy hxy
      obtain ⟨hshape, hself, hslots⟩ := hR x y hxy
      cases hu : (g.node x).kind.isUniqued with
      | false => exact hself hu
      | true =>
        -- the slots are pairwise one, so the types have one key
        have htargets : List.Forall₂ R (g.node x).slots (g.node y).slots := by
          rw [← hc.targets_eq x, ← hc.targets_eq y]
          exact List.forall₂_map_left_iff.2 (List.forall₂_map_right_iff.2 hslots)
        have hparts : (g.node x).slots = (g.node y).slots := by
          refine eq_of_forall₂ htargets fun s hs t ht hst => ?_
          exact ih s (by rwa [hc.targets_eq]) R hR t (hc.live_of_mem_slots hs)
            (hc.live_of_mem_slots ht) hst
        refine hc.coherent.eq_of_key_eq hx hy hu ?_
        unfold Node.key
        rw [hshape, hparts]
  obtain ⟨R, hR, hxy⟩ := h
  exact heq _ R hR _ (hc.wellFormed.live_resolve x) (hc.wellFormed.live_resolve y) hxy

/-! ## Carrying types over -/

theorem Carries.trans (h : g.Carries g') (h' : g'.Carries g'') (hwf' : g'.WellFormed) :
    g.Carries g'' where
  size_le := h.size_le.trans h'.size_le
  resolve_resolve := by
    intro k
    rw [← h'.resolve_resolve (g.resolve k), h.resolve_resolve, h'.resolve_resolve]
  key_eq := by
    intro k hk hl hp
    have hkey := h.key_eq hk hl hp
    have hshape : (g'.node (g'.resolve k)).shape = (g.node k).shape := congrArg Key.shape hkey
    have hslots : (g'.node (g'.resolve k)).slots = (g.node k).slots.map g'.resolve :=
      congrArg Key.parts hkey
    have hp' : (g'.node (g'.resolve k)).isPlaceholder = false := by
      rwa [Node.isPlaceholder, Node.kind, hshape]
    have hkey' := h'.key_eq (hwf'.resolve_lt (hk.trans_le h.size_le)) (hwf'.live_resolve k) hp'
    rw [h'.resolve_resolve, hshape, hslots, List.map_map] at hkey'
    rw [hkey']
    exact congrArg (Key.mk _) (List.map_congr_left fun s _ => h'.resolve_resolve s)

/-- Growth carries all types over. -/
theorem Extends.carries (hx : g.Extends g') (hc : g.Consistent []) (hwf' : g'.WellFormed) :
    g.Carries g' where
  size_le := hx.size_le
  resolve_resolve := fun h =>
    (hx.coarsens hwf').resolve_eq (hc.wellFormed.forwardsEnd.resolve_resolve h)
  key_eq := by
    intro h hh hl _
    have hres : ∀ s ∈ (g.node h).slots, g'.resolve s = s := fun s hs => by
      rw [hx.resolve_eq hc.wellFormed hwf' (hc.wellFormed.slots_lt hs),
        (hc.live_of_mem_slots hs).resolve_eq]
    rw [hx.resolve_eq hc.wellFormed hwf' hh, hl.resolve_eq, List.map_congr_left hres, List.map_id',
      Node.key_of_bare (hx.untouched hh).bare_eq]
    rfl

/-- The refinement of a placeholder that its replacement does not reach carries all types over. -/
theorem Reachable.carries_refine (hg : Reachable g) (hground : g.Grounded)
    (hnew : new.index < g.size) (h : g.refine old new = .ok (g', events))
    (hno : ¬ g.Reaches (g.resolve new) old) (hold : (g.node old).isPlaceholder) :
    g.Carries g' where
  size_le := (hg.size_refine hnew h).ge
  resolve_resolve := fun t =>
    (hg.coarsens_refine hnew h).resolve_eq (hg.consistent.wellFormed.forwardsEnd.resolve_resolve t)
  key_eq := by
    intro t _ hl hp
    have hr := refinable_of_refine h
    have hwf := hg.consistent.wellFormed
    have hc' := (hg.refine hr.old_lt hnew h).consistent
    have hground' := hg.grounded_refine hground hnew h hno
    have hkeep := hg.sameUnfolding_begin hnew h
    have hne : t ≠ old := by
      rintro rfl
      rw [hold] at hp
      cases hp
    have hlive : (g.begin old new).Live t := (live_begin hr t).2 ⟨hne, hl⟩
    obtain ⟨R, hR, ht⟩ := hkeep t
    rw [hlive.resolve_eq] at ht
    obtain ⟨hshape, -, hslots⟩ := hR _ _ ht
    rw [shape_begin hr] at hshape
    rw [slots_begin hr, if_neg hne] at hslots
    have hparts : (g.node t).slots.map g'.resolve = (g'.node (g'.resolve t)).slots := by
      rw [← hc'.targets_eq, ← List.forall₂_eq_eq_eq]
      unfold targets
      rw [List.forall₂_map_left_iff, List.forall₂_map_right_iff]
      exact hslots.imp fun s u hsu => hground'.resolve_eq hc' ((hkeep s).symm.trans ⟨R, hR, hsu⟩)
    unfold Node.key
    rw [← hshape, hparts]

end TypeGraph.Graph
