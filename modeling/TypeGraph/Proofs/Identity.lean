import TypeGraph.Proofs.Histories
import TypeGraph.Proofs.Matching

/-!
# Isomorphic types are one handle

An agreement pairs different types one to one, so that paired types have the same shape and their
slots hold the same types or paired ones. No graph that operations lead to has one, and no graph in
the middle of a refinement either, as far as the types of the pairs hold no retired type. Only a
type whose slots just moved can be in a new agreement, and such a type is compared with all others.
-/

namespace TypeGraph.Graph

/-- Off the diagonal, each type on either side has one partner at most. -/
def OneToOne (R : Handle → Handle → Prop) : Prop :=
  ∀ x y, R x y → x ≠ y →
    (∀ y', R x y' → x ≠ y' → y' = y) ∧ ∀ x', R x' y → x' ≠ y → x' = x

/-- A live derived type none of whose slots holds a retired type. -/
structure Settled (g : Graph) (h : Handle) : Prop where
  live : g.Live h
  isUniqued : (g.node h).kind.isUniqued
  ne_integer : (g.node h).kind ≠ .integer
  slots : ∀ s ∈ (g.node h).slots, g.Live s

/-- The relation pairs different types of the same structure one to one. -/
structure Agreement (g : Graph) (Q : Handle → Handle → Prop) : Prop where
  ne : ∀ {x y}, Q x y → x ≠ y
  left : ∀ {x y}, Q x y → g.Settled x
  right : ∀ {x y}, Q x y → g.Settled y
  shape_eq : ∀ {x y}, Q x y → (g.node x).shape = (g.node y).shape
  slots : ∀ {x y}, Q x y →
    List.Forall₂ (fun s t => s = t ∨ Q s t) (g.node x).slots (g.node y).slots
  right_unique : ∀ {x y y'}, Q x y → Q x y' → y = y'
  left_unique : ∀ {x x' y}, Q x y → Q x' y → x = x'

/-- No two types agree. -/
def NoDuplicates (g : Graph) : Prop := ∀ Q, g.Agreement Q → ∀ x y, ¬ Q x y

variable {g g' : Graph} {h x y old new owner : Handle} {agenda agenda' : List Task}
  {events : List Event} {Q : Handle → Handle → Prop}

theorem WellFormed.targetsBounded (hwf : g.WellFormed) : g.TargetsBounded := by
  intro a b hb
  obtain ⟨s, hs, rfl⟩ := List.mem_map.1 hb
  exact hwf.resolve_lt (hwf.slots_lt hs)

/-! ## Parts of an agreement -/

namespace Agreement

variable (hQ : g.Agreement Q)

include hQ

theorem flip : g.Agreement fun y x => Q x y where
  ne h := (hQ.ne h).symm
  left h := hQ.right h
  right h := hQ.left h
  shape_eq h := (hQ.shape_eq h).symm
  slots h := (hQ.slots h).flip.imp fun _ _ => Or.imp_left Eq.symm
  right_unique h h' := hQ.left_unique h h'
  left_unique h h' := hQ.right_unique h h'

/-- The pairs with their left types in a set that is closed under slots agree on their own. -/
theorem restrict {P : Handle → Prop}
    (hP : ∀ u, g.Settled u → P u → ∀ s ∈ (g.node u).slots, P s) :
    g.Agreement fun x y => Q x y ∧ P x where
  ne h := hQ.ne h.1
  left h := hQ.left h.1
  right h := hQ.right h.1
  shape_eq h := hQ.shape_eq h.1
  slots h := ((List.forall₂_and_left _ _).2 ⟨hP _ (hQ.left h.1) h.2, hQ.slots h.1⟩).imp
    fun _ _ ⟨hp, hst⟩ => hst.imp_right fun hq => ⟨hq, hp⟩
  right_unique h h' := hQ.right_unique h.1 h'.1
  left_unique h h' := hQ.left_unique h.1 h'.1

/-- Paired types of different keys hold paired types. -/
theorem exists_slot (hxy : Q x y) (hk : (g.node x).key ≠ (g.node y).key) :
    ∃ s ∈ (g.node x).slots, ∃ t, Q s t := by
  by_contra hno
  apply hk
  have heq : List.Forall₂ Eq (g.node x).slots (g.node y).slots :=
    ((List.forall₂_and_left _ _).2 ⟨fun s hs => hs, hQ.slots hxy⟩).imp fun s t ⟨hs, hst⟩ =>
      hst.resolve_right fun hq => hno ⟨s, hs, t, hq⟩
  rw [List.forall₂_eq_eq_eq] at heq
  unfold Node.key
  rw [hQ.shape_eq hxy, heq]

/-- If the left type of a pair is on no cycle, then the pairs that its slots lead to leave it out. -/
theorem exists_avoiding (hwf : g.WellFormed) (hxy : Q x y) (hk : (g.node x).key ≠ (g.node y).key)
    (hcycle : ¬ g.onCycle x) :
    ∃ P, g.Agreement P ∧ (∃ s t, P s t) ∧ ∀ s t, P s t → Q s t ∧ s ≠ x := by
  have htargets : ∀ {u s}, g.Settled u → s ∈ (g.node u).slots → s ∈ g.targets u := by
    intro u s hu hs
    rw [← (hu.slots s hs).resolve_eq]
    exact List.mem_map_of_mem hs
  obtain ⟨s, hs, t, hst⟩ := hQ.exists_slot hxy hk
  refine ⟨fun u v => Q u v ∧ g.Reaches s u, hQ.restrict fun u hu hr v hv =>
    hr.tail (htargets hu hv), ⟨s, t, hst, .refl s⟩, ?_⟩
  rintro u v ⟨huv, hr⟩
  refine ⟨huv, ?_⟩
  rintro rfl
  apply hcycle
  unfold onCycle
  rw [List.contains_iff_mem]
  exact (mem_reachFrom_targets hwf.targetsBounded).2 ⟨s, htargets (hQ.left hxy) hs, hr⟩

theorem pairs (hxy : Q x y) : g.Pairs Q x y ∧ x.index < g.size := by
  have hl := hQ.left hxy
  refine ⟨⟨?_, (hQ.slots hxy).imp fun s t hst => ?_⟩, WellFormed.lt_of_isUniqued hl.isUniqued⟩
  · unfold Node.alike
    rw [hl.isUniqued, hQ.shape_eq hxy, (hQ.slots hxy).length_eq]
    simp [hl.ne_integer]
  · rcases hst with rfl | hst
    · exact .inl rfl
    · refine .inr ?_
      rwa [(hQ.left hst).live.resolve_eq, (hQ.right hst).live.resolve_eq]

/-- The pairs agree in another graph too if it has their types with the same structure. -/
theorem transfer (hkeep : ∀ x, g.Settled x → (∃ y, Q x y ∨ Q y x) →
      g'.Settled x ∧ (g'.node x).key = (g.node x).key) : g'.Agreement Q := by
  have hl : ∀ {x y}, Q x y → g'.Settled x ∧ (g'.node x).key = (g.node x).key := fun hxy =>
    hkeep _ (hQ.left hxy) ⟨_, .inl hxy⟩
  have hr : ∀ {x y}, Q x y → g'.Settled y ∧ (g'.node y).key = (g.node y).key := fun hxy =>
    hkeep _ (hQ.right hxy) ⟨_, .inr hxy⟩
  have hshape : ∀ {x}, (g'.node x).key = (g.node x).key → (g'.node x).shape = (g.node x).shape :=
    fun h => congrArg Key.shape h
  have hslots : ∀ {x}, (g'.node x).key = (g.node x).key → (g'.node x).slots = (g.node x).slots :=
    fun h => congrArg Key.parts h
  exact
    { ne := hQ.ne
      left := fun hxy => (hl hxy).1
      right := fun hxy => (hr hxy).1
      shape_eq := fun hxy => by
        rw [hshape (hl hxy).2, hshape (hr hxy).2]
        exact hQ.shape_eq hxy
      slots := fun hxy => by
        rw [hslots (hl hxy).2, hslots (hr hxy).2]
        exact hQ.slots hxy
      right_unique := hQ.right_unique
      left_unique := hQ.left_unique }

end Agreement

/-! ## The type at hand -/

/-- A type that is like no other, by its key or by matching if it is on a cycle, is in no
agreement, so that none is left if there is none without it. -/
theorem noDuplicates_of_unique (hwf : g.WellFormed)
    (hunique : ∀ y, y ≠ owner → g.Settled y → (g.node owner).key ≠ (g.node y).key ∧
      (g.onCycle owner → (g.node owner).key.outline = (g.node y).key.outline →
        ¬ g.typesMatch owner y))
    (hrest : ∀ Q, g.Agreement Q → (∀ x y, Q x y → x ≠ owner ∧ y ≠ owner) → ∀ x y, ¬ Q x y) :
    g.NoDuplicates := by
  have hkey : ∀ {Q y}, g.Agreement Q → Q owner y → (g.node owner).key ≠ (g.node y).key :=
    fun hQ h => (hunique _ (hQ.ne h).symm (hQ.right h)).1
  have hcycle : ∀ {Q y}, g.Agreement Q → Q owner y → ¬ g.onCycle owner := by
    intro Q y hQ h hc
    apply (hunique y (hQ.ne h).symm (hQ.right h)).2 hc
    · unfold Node.key Key.outline
      simp only [hQ.shape_eq h, (hQ.slots h).length_eq]
    · refine typesMatch_of_pairs (R := Q) (fun _ _ _ => hQ.right_unique) (fun _ _ => hQ.pairs)
        (.inr ?_)
      rwa [(hQ.left h).live.resolve_eq, (hQ.right h).live.resolve_eq]
  -- an agreement without the type on the left can only have it on the right
  have hleft : ∀ Q, g.Agreement Q → (∀ x y, Q x y → x ≠ owner) → ∀ x y, ¬ Q x y := by
    intro Q hQ hno x y hxy
    by_cases hin : ∃ z, Q z owner
    · obtain ⟨z, hz⟩ := hin
      obtain ⟨P, hP, ⟨s, t, hst⟩, hsub⟩ :=
        hQ.flip.exists_avoiding hwf hz (hkey hQ.flip hz) (hcycle hQ.flip hz)
      exact hrest P hP (fun u v huv => ⟨(hsub u v huv).2, hno v u (hsub u v huv).1⟩) s t hst
    · refine hrest Q hQ (fun u v huv => ⟨hno u v huv, ?_⟩) x y hxy
      rintro rfl
      exact hin ⟨u, huv⟩
  intro Q hQ x y hxy
  by_cases hin : ∃ z, Q owner z
  · obtain ⟨z, hz⟩ := hin
    obtain ⟨P, hP, ⟨s, t, hst⟩, hsub⟩ := hQ.exists_avoiding hwf hz (hkey hQ hz) (hcycle hQ hz)
    exact hleft P hP (fun u v huv => (hsub u v huv).2) s t hst
  · refine hleft Q hQ (fun u v huv => ?_) x y hxy
    rintro rfl
    exact hin ⟨v, huv⟩

/-! ## Each change -/

/-- A type is settled in a graph in which it has the same structure, if live types are live
there. -/
theorem Settled.of_node (hl : ∀ k, g'.Live k → g.Live k) (hk : (g.node h).key = (g'.node h).key)
    (hh : g'.Settled h) : g.Settled h := by
  have hshape : (g.node h).shape = (g'.node h).shape := congrArg Key.shape hk
  have hslots : (g.node h).slots = (g'.node h).slots := congrArg Key.parts hk
  constructor
  · exact hl h hh.live
  · rw [Node.kind, hshape]
    exact hh.isUniqued
  · rw [Node.kind, hshape]
    exact hh.ne_integer
  · rw [hslots]
    exact fun s hs => hl s (hh.slots s hs)

theorem NoDuplicates.of_slots (hn : g.NoDuplicates)
    (hf : ∀ k, (g'.node k).forward = (g.node k).forward)
    (hk : ∀ k, (g'.node k).key = (g.node k).key) : g'.NoDuplicates := by
  intro Q hQ
  refine hn Q (hQ.transfer fun x hx _ => ⟨?_, (hk x).symm⟩)
  exact hx.of_node (fun k => (live_congr (hf k)).1) (hk x).symm

theorem NoDuplicates.of_bare (hn : g.NoDuplicates) (hb : ∀ k, (g'.node k).bare = (g.node k).bare) :
    g'.NoDuplicates :=
  hn.of_slots (fun k => Node.forward_of_bare (hb k)) fun k => Node.key_of_bare (hb k)

theorem NoDuplicates.promote (hn : g.NoDuplicates) (start : Handle) :
    (g.promote start).1.NoDuplicates := by
  refine hn.of_slots (g.forward_promote start) fun k => ?_
  unfold Node.key
  rw [shape_promote, slots_promote]

/-- Without the owner of the slots that move there is nothing new. -/
theorem NoDuplicates.rewire (hn : g.NoDuplicates) (hQ : (g.rewire owner old new).Agreement Q)
    (hno : ∀ x y, Q x y → x ≠ owner ∧ y ≠ owner) : ∀ x y, ¬ Q x y := by
  refine hn Q (hQ.transfer fun x hx hin => ?_)
  have hne : x ≠ owner := by
    obtain ⟨y, hxy | hyx⟩ := hin
    · exact (hno x y hxy).1
    · exact (hno y x hyx).2
  have hk : (g.node x).key = ((g.rewire owner old new).node x).key := by
    unfold Node.key
    rw [shape_rewire, slots_rewire, if_neg hne]
  exact ⟨hx.of_node (fun k => (live_rewire ..).1) hk, hk⟩

/-- A type that is retired leaves all agreements, and the others stay as they were. -/
theorem Agreement.of_begin (hr : g.Refinable old new) (hQ : (g.begin old new).Agreement Q) :
    g.Agreement Q ∧ ∀ x y, Q x y → x ≠ old ∧ y ≠ old := by
  have hlive := fun k => (live_begin hr k).1
  refine ⟨hQ.transfer fun x hx _ => ?_, fun x y hxy =>
    ⟨(hlive x (hQ.left hxy).live).1, (hlive y (hQ.right hxy).live).1⟩⟩
  have hk : (g.node x).key = ((g.begin old new).node x).key := by
    unfold Node.key
    rw [shape_begin hr, slots_begin hr, if_neg (hlive x hx.live).1]
  exact ⟨hx.of_node (fun k hl => (hlive k hl).2) hk, hk⟩

/-- Each advance keeps the graph free of duplicates. -/
theorem Advance.noDuplicates (ha : Advance g agenda events g' agenda') (hc : g.Consistent agenda)
    (hn : g.NoDuplicates) : g'.NoDuplicates := by
  cases ha with
  | settled | pass | announced | hear => exact hn
  | move => exact hn.of_bare fun k => bare_moveListener _ _ _ k _
  | promote => exact hn.promote _
  | collapse ho hg hk he hr =>
    subst hg
    intro Q hQ
    obtain ⟨hrewired, hno⟩ := hQ.of_begin hr
    exact hn.rewire hrewired hno
  | @keep _ g₂ old new owner key _ _ ho hg hk he hr =>
    subst hg
    have hp := hc.toPoised.rewire ho
    obtain ⟨rfl, -, -⟩ := registerProvisional_eq_ok hr
    have hnew : (g.rewire owner old (g.resolve new)).NoDuplicates := by
      refine noDuplicates_of_unique hp.wellFormed (fun y hne hy => ?_) fun Q hQ => hn.rewire hQ
      obtain ⟨-, rfl⟩ := keyOfNode_eq_ok hk
      obtain ⟨hkey, hmatch⟩ := hp.indexed.of_equivalent?_none he
        (hc.holds_rewire hne hy.live hy.isUniqued) hne
      exact ⟨hkey.symm, fun hcycle ho => hmatch hcycle ho.symm⟩
    refine NoDuplicates.promote ?_ owner
    exact hnew.of_bare fun _ => rfl

/-! ## New types -/

/-- Without a new type there is nothing new. -/
theorem NoDuplicates.extend (hn : g.NoDuplicates)
    (hb : ∀ k, k ≠ g.next → (g'.node k).bare = (g.node k).bare) (hQ : g'.Agreement Q)
    (hno : ∀ x y, Q x y → x ≠ g.next ∧ y ≠ g.next) : ∀ x y, ¬ Q x y := by
  refine hn Q (hQ.transfer fun x hx hin => ?_)
  have hne : x ≠ g.next := by
    obtain ⟨y, hxy | hyx⟩ := hin
    · exact (hno x y hxy).1
    · exact (hno y x hyx).2
  have hk : (g.node x).key = (g'.node x).key := (Node.key_of_bare (hb x hne)).symm
  refine ⟨hx.of_node (fun k hl => ?_) hk, hk⟩
  by_cases hnext : k = g.next
  · rw [hnext]
    unfold Live
    rw [node_next]
    rfl
  · exact (live_of_bare (hb k hnext)).1 hl

/-- A type that no slot leads to is on no cycle. -/
theorem not_onCycle_of_not_mem (hwf : g.WellFormed) (hno : ∀ u, h ∉ g.targets u) :
    ¬ g.onCycle h := by
  have hmem : ∀ {b c}, g.Reaches b c → (∃ u, b ∈ g.targets u) → ∃ u, c ∈ g.targets u := by
    intro b c hr
    induction hr with
    | refl => exact fun hb => hb
    | step hb _ ih => exact fun _ => ih ⟨_, hb⟩
  unfold onCycle
  rw [List.contains_iff_mem, mem_reachFrom_targets hwf.targetsBounded]
  rintro ⟨b, hb, hr⟩
  obtain ⟨u, hu⟩ := hmem hr ⟨h, hb⟩
  exact hno u hu

theorem not_onCycle_next {key : Key} (hc : g.Consistent []) (hk : g.Internable key) :
    ¬ (g.grow key).onCycle g.next := by
  refine not_onCycle_of_not_mem (hc.wellFormed.grow hk) fun u hm => ?_
  obtain ⟨s, hs, hres⟩ := List.mem_map.1 hm
  have hbefore : s.index < g.size ∧ g.Live s := by
    rw [slots_grow] at hs
    split at hs
    · exact hk.parts s hs
    · exact ⟨hc.wellFormed.slots_lt hs, hc.live_of_mem_slots hs⟩
  rw [(live_grow.2 hbefore.2).resolve_eq] at hres
  exact ne_next_of_lt hbefore.1 hres

/-- A type of a new key agrees with no other. -/
theorem NoDuplicates.intern {key : Key} (hc : g.Consistent []) (hk : g.Internable key)
    (hn : g.NoDuplicates) : (g.intern key).2.NoDuplicates := by
  cases hl : g.registry.lookup key with
  | some h =>
    rw [intern_of_lookup_some hl]
    exact hn
  | none =>
    rw [intern_of_lookup_none hk hl]
    refine NoDuplicates.of_bare (g := g.grow key) ?_ fun _ => rfl
    refine noDuplicates_of_unique (hc.wellFormed.grow hk) (fun y hne hy => ?_)
      fun Q hQ => hn.extend (fun k => bare_grow_of_ne) hQ
    refine ⟨fun hkey => ?_, fun hcycle => absurd hcycle (not_onCycle_next hc hk)⟩
    have hy' : ((g.grow key).node y).key = (g.node y).key := Node.key_of_bare (bare_grow_of_ne hne)
    have hkind : ((g.grow key).node y).kind = (g.node y).kind := congrArg Key.kind hy'
    rw [key_grow_next, hy'] at hkey
    rw [hkey, hc.indexed.lookup_key (hc.holds (live_grow.1 hy.live) (hkind ▸ hy.isUniqued))] at hl
    cases hl

theorem NoDuplicates.placeholder (hn : g.NoDuplicates) : g.placeholder.2.NoDuplicates := by
  rw [placeholder_eq]
  intro Q hQ
  have hne : ∀ {x}, (g.push (.fresh .placeholder [] true)).Settled x → x ≠ g.next := by
    rintro x hx rfl
    have hu := hx.isUniqued
    rw [node_push, if_pos rfl] at hu
    cases hu
  refine hn.extend (fun k hk => ?_) hQ fun x y hxy => ⟨hne (hQ.left hxy), hne (hQ.right hxy)⟩
  rw [node_push, if_neg hk]

theorem noDuplicates_scalars : scalars.NoDuplicates := by
  intro Q hQ x y hxy
  have hu := (hQ.left hxy).isUniqued
  obtain ⟨p, hp⟩ := node_scalars x
  rw [hp] at hu
  cases hu

/-- Each change keeps the graph free of duplicates. -/
theorem Changes.noDuplicates (hx : Changes g g') (hc : g.Consistent []) (hn : g.NoDuplicates) :
    g'.NoDuplicates := by
  cases hx with
  | intern hk => exact hn.intern hc hk
  | placeholder => exact hn.placeholder
  | refine hlt hr =>
    exact (hc.refine_induction (P := fun g _ => g.NoDuplicates) hlt hr
      (fun href Q hQ => hn Q (hQ.of_begin href).1) fun hc hn ha => ha.noDuplicates hc hn).2
  | listeners hs hr hb ho => exact hn.of_bare hb

theorem Reachable.noDuplicates (hg : Reachable g) : g.NoDuplicates :=
  hg.change_induction noDuplicates_scalars fun hc hn hx => hx.noDuplicates hc hn

/-! ## Identity -/

/-- With no task left the slots of a type hold the types that they lead to. -/
theorem Consistent.targets_eq (hc : g.Consistent []) (h : Handle) :
    g.targets h = (g.node h).slots := by
  unfold targets
  conv_rhs => rw [← List.map_id (g.node h).slots]
  exact List.map_congr_left fun s hs => (hc.live_of_mem_slots hs).resolve_eq

/-- Different live types of one shape are no integers, since they differ in their slots. -/
theorem Consistent.ne_integer (hc : g.Consistent []) (hx : g.Live x) (hy : g.Live y) (hne : x ≠ y)
    (hs : (g.node x).shape = (g.node y).shape) : (g.node x).kind ≠ .integer := by
  intro hi
  have hkind : (g.node y).kind = .integer := by rwa [Node.kind, ← hs]
  have hnil : ∀ {k}, g.Live k → (g.node k).kind = .integer → (g.node k).slots = [] := by
    intro k hl hk
    have ht := hc.wellFormed.takes hl
    unfold Node.kind at hk
    cases hsh : (g.node k).shape <;> rw [hsh] at hk ht <;> cases hk
    exact List.length_eq_zero_iff.1 ht
  refine hne (hc.indexed.eq_of_key_eq (hc.holds hx (by rw [hi]; rfl))
    (hc.holds hy (by rw [hkind]; rfl)) ?_)
  unfold Node.key
  rw [hs, hnil hx hi, hnil hy hkind]

/-- What a one-to-one bisimulation relates off the diagonal, as far as it is live, agrees. -/
theorem IsBisimulation.agreement {R : Handle → Handle → Prop} (hc : g.Consistent [])
    (hR : g.IsBisimulation g R) (hone : OneToOne R) :
    g.Agreement fun x y => R x y ∧ x ≠ y ∧ g.Live x ∧ g.Live y := by
  have huniqued : ∀ {x y}, R x y → x ≠ y → (g.node x).kind.isUniqued := by
    intro x y hxy hne
    by_contra hu
    exact hne ((hR x y hxy).eq_of_not_uniqued (Bool.eq_false_iff.2 hu))
  have hkind : ∀ {x y}, R x y → (g.node x).kind = (g.node y).kind := fun hxy =>
    congrArg Shape.kind (hR _ _ hxy).shape_eq
  constructor
  · exact fun hxy => hxy.2.1
  · rintro x y ⟨hxy, hne, hx, hy⟩
    exact ⟨hx, huniqued hxy hne, hc.ne_integer hx hy hne (hR x y hxy).shape_eq,
      fun s hs => hc.live_of_mem_slots hs⟩
  · rintro x y ⟨hxy, hne, hx, hy⟩
    exact ⟨hy, hkind hxy ▸ huniqued hxy hne,
      hc.ne_integer hy hx hne.symm (hR x y hxy).shape_eq.symm, fun s hs => hc.live_of_mem_slots hs⟩
  · exact fun hxy => (hR _ _ hxy.1).shape_eq
  · rintro x y ⟨hxy, -, -, -⟩
    rw [← hc.targets_eq x, ← hc.targets_eq y]
    unfold targets
    rw [List.forall₂_map_left_iff, List.forall₂_map_right_iff]
    refine (hR x y hxy).slots.imp fun s t hst => ?_
    by_cases heq : g.resolve s = g.resolve t
    · exact .inl heq
    · exact .inr ⟨hst, heq, hc.wellFormed.live_resolve s, hc.wellFormed.live_resolve t⟩
  · exact fun hxy hxy' => ((hone _ _ hxy.1 hxy.2.1).1 _ hxy'.1 hxy'.2.1).symm
  · exact fun hxy hxy' => ((hone _ _ hxy.1 hxy.2.1).2 _ hxy'.1 hxy'.2.1).symm

/-- **Identity.** In a reachable graph live types are the same exactly when a one-to-one
bisimulation relates them. -/
theorem Reachable.eq_iff_exists_oneToOne (hg : Reachable g) {a b : Handle} (ha : g.Live a)
    (hb : g.Live b) : a = b ↔ ∃ R, g.IsBisimulation g R ∧ OneToOne R ∧ R a b := by
  constructor
  · rintro rfl
    exact ⟨Eq, g.isBisimulation_eq, fun _ _ hxy hne => absurd hxy hne, rfl⟩
  · rintro ⟨R, hR, hone, hab⟩
    by_contra hne
    exact hg.noDuplicates _ (hR.agreement hg.consistent hone) a b ⟨hab, hne, ha, hb⟩

/-- Structures of one infinite unfolding, each of two pointers to them: the first one of two pointers
to itself, the second of pointers to the third and to itself, the third of pointers to the second and
to the first. Each has one field more, and that of the first one is refined last. -/
def tangle : List Action :=
  [.placeholder, .pointer ⟨9⟩, .placeholder, .struct [⟨10⟩, ⟨10⟩, ⟨11⟩] false, .refine ⟨9⟩ ⟨12⟩,
    .placeholder, .placeholder, .pointer ⟨13⟩, .pointer ⟨14⟩,
    .struct [⟨16⟩, ⟨15⟩, .i32] false, .refine ⟨13⟩ ⟨17⟩,
    .struct [⟨15⟩, ⟨10⟩, .i32] false, .refine ⟨14⟩ ⟨18⟩, .refine ⟨11⟩ .i32]

set_option maxRecDepth 10000 in
theorem play_tangle : ∃ g, initial.play tangle = some g ∧ g.Live ⟨12⟩ ∧ g.Live ⟨17⟩ ∧
    g.isAbstract ⟨12⟩ = false ∧ g.isAbstract ⟨17⟩ = false ∧
    g.typesMatch ⟨17⟩ ⟨12⟩ = true ∧ g.typesMatch ⟨12⟩ ⟨17⟩ = false := by
  have h : (initial.play tangle).map (fun g =>
      ((g.node ⟨12⟩).forward, (g.node ⟨17⟩).forward, g.isAbstract ⟨12⟩, g.isAbstract ⟨17⟩,
        g.typesMatch ⟨17⟩ ⟨12⟩, g.typesMatch ⟨12⟩ ⟨17⟩)) =
      some (none, none, false, false, true, false) := by cbv
  obtain ⟨g, hg, h⟩ := Option.map_eq_some_iff.1 h
  simp only [Prod.mk.injEq] at h
  exact ⟨g, hg, h⟩

/-- No one-to-one bisimulation relates the first structure and the second. -/
theorem not_oneToOne_tangle : ∃ g, initial.play tangle = some g ∧
    ¬ ∃ R, g.IsBisimulation g R ∧ OneToOne R ∧ R ⟨12⟩ ⟨17⟩ := by
  obtain ⟨g, hg, h12, h17, -⟩ := play_tangle
  refine ⟨g, hg, fun hR => ?_⟩
  have heq := ((Reachable.initial.play hg).eq_iff_exists_oneToOne h12 h17).2 hR
  cases heq

/-- Different live concrete types of a reachable graph can unfold alike: matching takes the second
structure for the first, but not the first for the second. -/
theorem sameUnfolding_tangle : ∃ g, initial.play tangle = some g ∧ Reachable g ∧
    g.Live ⟨12⟩ ∧ g.Live ⟨17⟩ ∧ g.isAbstract ⟨12⟩ = false ∧ g.isAbstract ⟨17⟩ = false ∧
    g.SameUnfolding g ⟨12⟩ ⟨17⟩ ∧
    g.typesMatch ⟨17⟩ ⟨12⟩ = true ∧ g.typesMatch ⟨12⟩ ⟨17⟩ = false ∧
    (⟨12⟩ : Handle) ≠ ⟨17⟩ := by
  obtain ⟨g, hg, h12, h17, ha12, ha17, hmatch, hnot⟩ := play_tangle
  exact ⟨g, hg, Reachable.initial.play hg, h12, h17, ha12, ha17,
    (sameUnfolding_of_typesMatch hmatch).symm, hmatch, hnot, by decide⟩

end TypeGraph.Graph
