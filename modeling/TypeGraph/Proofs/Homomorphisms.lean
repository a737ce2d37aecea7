import Mathlib
import TypeGraph.Graph.Reachability
import TypeGraph.Proofs.Matching
import TypeGraph.Proofs.Permanence

/-!
# Matching in any graph without cycles of forward links

Types are matched in the middle of a refinement too, where slots still hold types that were
replaced. All that matching needs is that forward links form no cycle.

1. Then each path of forward links ends (`forwardsEnd_iff_acyclic`): a longer path than there are
   retired types would meet one of them twice.
2. Each pair adds work only if its left type had no partner yet, and then no more than that type has
   slots (`pendingCount`). So the loop ends.
3. Types that match are equal as infinite trees: a relation that holds of them relates different
   nodes only if they agree and their slots are related again.
4. Any map of the types under one into those under the other that respects their structure makes the
   two match: the pairs that it does not fix give each type on the left one partner.

`decidesMatches_of_acyclic` puts these together.
-/

namespace TypeGraph.Graph

variable {g : Graph} {a b h k : Handle}

/-! ## Forward links without cycles -/

theorem follow_add (g : Graph) (n m : Nat) (h : Handle) :
    g.follow (n + m) h = g.follow m (g.follow n h) := by
  induction n generalizing h with
  | zero => rw [Nat.zero_add, follow]
  | succ n ih =>
    cases hf : (g.node h).forward with
    | none => rw [follow_of_forward_none hf, follow_of_forward_none hf, follow_of_forward_none hf]
    | some next =>
      rw [Nat.add_right_comm, follow_of_forward_some hf, follow_of_forward_some hf]
      exact ih next

/-- One link or more lead from a retired type to what follows. -/
theorem transGen_follow (hh : ¬ g.Live h) (n : Nat) :
    Relation.TransGen g.Forwards h (g.follow (n + 1) h) := by
  obtain ⟨next, hf⟩ := not_live_iff.1 hh
  rw [follow_of_forward_some hf]
  exact .head' hf (forwards_follow n next)

/-- On a path that has not ended all types are retired. -/
theorem not_live_follow {n m : Nat} (hn : ¬ g.Live (g.follow n h)) (hm : m ≤ n) :
    ¬ g.Live (g.follow m h) := by
  intro hl
  rw [follow_of_le hl hm] at hn
  exact hn hl

theorem lt_of_not_live (hh : ¬ g.Live h) : h.index < g.size := by
  by_contra hb
  refine hh ?_
  unfold Live
  rw [node_of_size_le (Nat.le_of_not_lt hb)]
  rfl

theorem length_filter_isRetired (g : Graph) :
    (g.handles.filter fun h => (g.node h).isRetired).length = g.size - g.liveCount := by
  have hsplit := List.length_eq_countP_add_countP (fun h => (g.node h).isRetired) (l := g.handles)
  have hlength : g.handles.length = g.size := by simp [handles]
  have hlive : g.liveCount = g.handles.countP fun h => decide ¬ ((g.node h).isRetired = true) := by
    rw [liveCount_eq_countP]
    exact List.countP_congr fun h _ => by simp
  rw [← List.countP_eq_length_filter]
  omega

/-- The types on a path without repetition are different ones. -/
theorem nodup_map_follow (hacyclic : ∀ h, ¬ Relation.TransGen g.Forwards h h) {n : Nat}
    (hn : ¬ g.Live (g.follow n h)) : ((List.range (n + 1)).map fun i => g.follow i h).Nodup := by
  refine List.nodup_map_iff_inj_on List.nodup_range |>.2 fun i hi j hj hij => ?_
  have hpath : ∀ {i j : Nat}, i < j → j < n + 1 → g.follow i h ≠ g.follow j h := by
    intro i j hlt hj heq
    obtain ⟨d, rfl⟩ : ∃ d, j = i + (d + 1) := ⟨j - i - 1, by omega⟩
    have hcycle := transGen_follow (not_live_follow hn (m := i) (by omega)) d
    rw [← follow_add, ← heq] at hcycle
    exact hacyclic _ hcycle
  rcases Nat.lt_trichotomy i j with hlt | heq | hlt
  · exact absurd hij (hpath hlt (List.mem_range.1 hj))
  · exact heq
  · exact absurd hij.symm (hpath hlt (List.mem_range.1 hi))

/-- Paths of forward links end just if forward links form no cycle. -/
theorem forwardsEnd_iff_acyclic :
    g.ForwardsEnd ↔ ∀ h, ¬ Relation.TransGen g.Forwards h h := by
  constructor
  · intro hend h
    exact not_cyclic_of_forwards (forwards_follow g.size h) (hend.forward_resolve h)
  · intro hacyclic h
    by_contra hn
    have hnodup := nodup_map_follow hacyclic hn
    have hsub : ((List.range (g.size - g.liveCount + 1)).map fun i => g.follow i h) ⊆
        g.handles.filter fun h => (g.node h).isRetired := by
      intro k hk
      obtain ⟨i, hi, rfl⟩ := List.mem_map.1 hk
      have hretired := not_live_follow hn (Nat.le_of_lt_succ (List.mem_range.1 hi))
      rw [List.mem_filter, mem_handles]
      exact ⟨lt_of_not_live hretired, eq_true_of_ne_false (mt isRetired_eq_false_iff.1 hretired)⟩
    have hle := (hnodup.subperm hsub).length_le
    rw [length_filter_isRetired, List.length_map, List.length_range] at hle
    omega

/-! ## The loop ends -/

/-- The live type at the end of a path of forward links, on fuel for `n` links. -/
def resolveWithin (g : Graph) : Nat → Handle → Option Handle
  | 0, h => if (g.node h).forward.isNone then some h else none
  | n + 1, h =>
    match (g.node h).forward with
    | none => some h
    | some next => g.resolveWithin n next

/-- Whether all pairs match, on fuel for `n` pairs with `links` forward links for each type. -/
def matchPairsWithin (g : Graph) (links : Nat) :
    Nat → Array (Option Handle) → List (Handle × Handle) → Option Bool
  | _, _, [] => some true
  | 0, _, _ :: _ => none
  | n + 1, partners, (a, b) :: rest => do
    let x ← g.resolveWithin links a
    let y ← g.resolveWithin links b
    if x = y then
      g.matchPairsWithin links n partners rest
    else if (g.node x).alike (g.node y) then
      if partners[x.index]? = some none then
        g.matchPairsWithin links n (partners.setIfInBounds x.index (some y))
          ((g.node x).slots.zip (g.node y).slots ++ rest)
      else if partners[x.index]? = some (some y) then
        g.matchPairsWithin links n partners rest
      else
        some false
    else
      some false

/-- Whether two types match, on fuel. -/
def matchWithin (g : Graph) (links n : Nat) (a b : Handle) : Option Bool :=
  g.matchPairsWithin links n (Array.replicate g.size none) [(a, b)]

/-- The number of slots of all types. -/
def slotCount (g : Graph) : Nat := ∑ i ∈ Finset.range g.size, (g.node ⟨i⟩).slots.length

/-- The slots of the types that have no partner yet. -/
def pendingCount (g : Graph) (partners : Array (Option Handle)) : Nat :=
  ∑ i ∈ Finset.range g.size, if partners[i]? = some none then (g.node ⟨i⟩).slots.length else 0

theorem resolveWithin_follow {n : Nat} (hl : g.Live (g.follow n h)) :
    g.resolveWithin n h = some (g.follow n h) := by
  induction n generalizing h with
  | zero =>
    rw [follow] at hl ⊢
    rw [resolveWithin, hl]
    rfl
  | succ n ih =>
    cases hf : (g.node h).forward with
    | none => rw [resolveWithin, hf, follow_of_forward_none hf]
    | some next =>
      rw [follow_of_forward_some hf] at hl ⊢
      rw [resolveWithin, hf]
      exact ih hl

theorem ForwardsEnd.resolveWithin_eq (hg : g.ForwardsEnd) {links : Nat} (hlinks : g.size ≤ links)
    (h : Handle) : g.resolveWithin links h = some (g.resolve h) := by
  have hfollow : g.follow links h = g.resolve h :=
    hg.follow_eq_resolve ((Nat.sub_le _ _).trans hlinks) h
  rw [← hfollow]
  refine resolveWithin_follow ?_
  rw [hfollow]
  exact hg.forward_resolve h

/-- A type that gets its partner is pending no more. -/
theorem pendingCount_setIfInBounds {partners : Array (Option Handle)} (y : Handle)
    (hh : h.index < g.size) (hnone : partners[h.index]? = some none) :
    g.pendingCount (partners.setIfInBounds h.index (some y)) + (g.node h).slots.length =
      g.pendingCount partners := by
  have hmem : h.index ∈ Finset.range g.size := Finset.mem_range.2 hh
  unfold pendingCount
  rw [← Finset.add_sum_erase _ _ hmem, ← Finset.add_sum_erase (a := h.index) _ _ hmem,
    getElem?_setIfInBounds_self hnone, if_neg (by simp), if_pos hnone, Nat.zero_add, Nat.add_comm]
  congr 1
  refine Finset.sum_congr rfl fun i hi => ?_
  rw [Array.getElem?_setIfInBounds_ne (Finset.ne_of_mem_erase hi).symm]

/-- With fuel for all pairs that can come up, the loop decides what `matchPairs` does. -/
theorem ForwardsEnd.matchPairsWithin_eq (hg : g.ForwardsEnd) {links n : Nat}
    (hlinks : g.size ≤ links) {partners : Array (Option Handle)} {pairs : List (Handle × Handle)}
    (hn : pairs.length + g.pendingCount partners ≤ n) :
    g.matchPairsWithin links n partners pairs = some (g.matchPairs partners pairs) := by
  induction n generalizing partners pairs with
  | zero =>
    obtain rfl : pairs = [] := List.length_eq_zero_iff.1 (by omega)
    rw [matchPairsWithin, matchPairs]
  | succ n ih =>
    cases pairs with
    | nil => rw [matchPairsWithin, matchPairs]
    | cons p rest =>
      obtain ⟨a, b⟩ := p
      rw [List.length_cons] at hn
      have hrest : g.matchPairsWithin links n partners rest = some (g.matchPairs partners rest) :=
        ih (by omega)
      rw [matchPairsWithin, matchPairs, hg.resolveWithin_eq hlinks, hg.resolveWithin_eq hlinks]
      simp only [Option.bind_eq_bind, Option.bind_some]
      by_cases hsame : g.resolve a = g.resolve b
      · rw [if_pos hsame, if_pos hsame, hrest]
      rw [if_neg hsame, if_neg hsame]
      by_cases halike : (g.node (g.resolve a)).alike (g.node (g.resolve b))
      · rw [if_pos halike, if_pos halike]
        by_cases hnone : partners[(g.resolve a).index]? = some none
        · rw [if_pos hnone, if_pos hnone]
          have hcount := pendingCount_setIfInBounds (g.resolve b)
            (WellFormed.lt_of_isUniqued (isUniqued_of_alike halike)) hnone
          have hzip := Nat.min_le_left (g.node (g.resolve a)).slots.length
            (g.node (g.resolve b)).slots.length
          refine ih ?_
          rw [List.length_append, List.length_zip]
          omega
        · rw [if_neg hnone, if_neg hnone]
          by_cases hpartner : partners[(g.resolve a).index]? = some (some (g.resolve b))
          · rw [if_pos hpartner, hrest, decide_eq_true hpartner, Bool.true_and]
          · rw [if_neg hpartner, decide_eq_false hpartner, Bool.false_and]
      · rw [if_neg halike, if_neg halike]

/-- Matching two types ends within as many pairs as there are slots, and one. -/
theorem ForwardsEnd.matchWithin_eq (hg : g.ForwardsEnd) {links n : Nat} (hlinks : g.size ≤ links)
    (hn : g.slotCount < n) : g.matchWithin links n a b = some (g.typesMatch a b) := by
  refine hg.matchPairsWithin_eq hlinks ?_
  have hle : g.pendingCount (Array.replicate g.size none) ≤ g.slotCount := by
    refine Finset.sum_le_sum fun i _ => ?_
    split
    · exact Nat.le_refl _
    · exact Nat.zero_le _
  rw [List.length_singleton]
  omega

/-! ## Matching types are equal as infinite trees -/

/-- Related types are live, and the same or of one head with slots that are related again. -/
structure MatchesHeads (g : Graph) (R : Handle → Handle → Prop) (x y : Handle) : Prop where
  live_left : g.Live x
  live_right : g.Live y
  eq_or : x = y ∨ ((g.node x).kind.isUniqued ∧ (g.node x).kind ≠ .integer ∧
    (g.node x).shape = (g.node y).shape ∧ (g.node x).slots.length = (g.node y).slots.length ∧
    List.Forall₂ (fun s t => R (g.resolve s) (g.resolve t)) (g.node x).slots (g.node y).slots)

/-- Two types are equal as infinite trees. -/
def EqualTrees (g : Graph) (a b : Handle) : Prop :=
  ∃ R, R (g.resolve a) (g.resolve b) ∧ ∀ x y, R x y → g.MatchesHeads R x y

theorem ne_integer_of_alike {n m : Node} (h : n.alike m) : n.kind ≠ .integer := by
  unfold Node.alike at h
  simp only [Bool.and_eq_true, bne_iff_ne] at h
  exact h.1.1.2

theorem ForwardsEnd.equalTrees_of_typesMatch (hg : g.ForwardsEnd) (h : g.typesMatch a b) :
    g.EqualTrees a b := by
  obtain ⟨R, hab, hR⟩ := exists_of_typesMatch h
  refine ⟨fun x y => g.Live x ∧ g.Live y ∧ (x = y ∨ R x y),
    ⟨hg.forward_resolve a, hg.forward_resolve b, hab⟩, ?_⟩
  rintro x y ⟨hx, hy, hxy⟩
  refine ⟨hx, hy, hxy.imp_right fun hxy => ?_⟩
  have halike := (hR x y hxy).alike
  refine ⟨isUniqued_of_alike halike, ne_integer_of_alike halike, shape_eq_of_alike halike,
    length_slots_eq_of_alike halike, (hR x y hxy).slots.imp fun s t hst => ?_⟩
  exact ⟨hg.forward_resolve s, hg.forward_resolve t, hst⟩

/-! ## Maps that respect the structure are found -/

/-- The map takes each type under `a` to one of the same head that holds what the map makes of its
components, and keeps placeholders, scalars and integers. -/
structure IsHomomorphism (g : Graph) (f : Handle → Handle) (a : Handle) : Prop where
  shape_eq : ∀ {x}, g.Reaches a x → (g.node (f x)).shape = (g.node x).shape
  length_slots : ∀ {x}, g.Reaches a x → (g.node (f x)).slots.length = (g.node x).slots.length
  targets_eq : ∀ {x}, g.Reaches a x → g.targets (f x) = (g.targets x).map f
  fixes : ∀ {x}, g.Reaches a x → (g.node x).kind = .placeholder ∨ (g.node x).kind.isPrimitive ∨
    (g.node x).kind = .integer → f x = x

variable {f : Handle → Handle}

/-- A type that the map moves is of a kind that can match another. -/
theorem IsHomomorphism.alike (hf : g.IsHomomorphism f a) {x : Handle} (hx : g.Reaches a x)
    (hne : x ≠ f x) : (g.node x).alike (g.node (f x)) := by
  have hmoved := mt (hf.fixes hx) hne.symm
  have hu : (g.node x).kind.isUniqued := by
    cases hk : (g.node x).kind <;> simp_all [Kind.isUniqued, Kind.isPrimitive]
  unfold Node.alike
  simp only [Bool.and_eq_true, bne_iff_ne, decide_eq_true_eq, beq_iff_eq]
  exact ⟨⟨⟨hu, fun hi => hmoved (.inr (.inr hi))⟩, (hf.shape_eq hx).symm⟩,
    (hf.length_slots hx).symm⟩

/-- The pairs that the map does not fix match. -/
theorem IsHomomorphism.pairs (hf : g.IsHomomorphism f a) {x : Handle} (hx : g.Reaches a x)
    (hne : x ≠ f x) : g.Pairs (fun x y => g.Reaches a x ∧ x ≠ y ∧ f x = y) x (f x) where
  alike := hf.alike hx hne
  slots := by
    have htargets := hf.targets_eq hx
    unfold targets at htargets
    rw [List.map_map] at htargets
    refine List.forall₂_iff_get.2 ⟨(hf.length_slots hx).symm, fun i hi hi' => ?_⟩
    have hslot : g.resolve ((g.node (f x)).slots.get ⟨i, hi'⟩) =
        f (g.resolve ((g.node x).slots.get ⟨i, hi⟩)) := by
      have hget := congrArg (fun l => l[i]?) htargets
      simpa [hi, hi'] using hget
    have hreach := hx.tail (List.mem_map_of_mem (List.get_mem (g.node x).slots ⟨i, hi⟩))
    by_cases heq : g.resolve ((g.node x).slots.get ⟨i, hi⟩) =
        g.resolve ((g.node (f x)).slots.get ⟨i, hi'⟩)
    · exact .inl heq
    · exact .inr ⟨hreach, heq, hslot.symm⟩

theorem IsHomomorphism.typesMatch (hf : g.IsHomomorphism f (g.resolve a))
    (hab : f (g.resolve a) = g.resolve b) : g.typesMatch a b := by
  refine typesMatch_of_pairs (R := fun x y => g.Reaches (g.resolve a) x ∧ x ≠ y ∧ f x = y)
    ?_ ?_ ?_
  · rintro x y y' ⟨-, -, rfl⟩ ⟨-, -, rfl⟩
    rfl
  · rintro x _ ⟨hx, hne, rfl⟩
    have hpairs := hf.pairs hx hne
    exact ⟨hpairs, WellFormed.lt_of_isUniqued (isUniqued_of_alike hpairs.alike)⟩
  · by_cases heq : g.resolve a = g.resolve b
    · exact .inl heq
    · exact .inr ⟨.refl _, heq, hab⟩

/-! ## The theorem -/

/-- What matching two types comes to. -/
structure DecidesMatches (g : Graph) (a b : Handle) : Prop where
  /-- Fuel enough for all links and all slots is enough for the answer. -/
  ends : ∀ {links n}, g.size ≤ links → g.slotCount < n →
    g.matchWithin links n a b = some (g.typesMatch a b)
  /-- Types that match are equal. -/
  equalTrees : g.typesMatch a b → g.EqualTrees a b
  /-- A map of the one onto the other that respects the structure makes them match. -/
  of_homomorphism : ∀ {f}, g.IsHomomorphism f (g.resolve a) →
    f (g.resolve a) = g.resolve b → g.typesMatch a b

theorem ForwardsEnd.decidesMatches (hg : g.ForwardsEnd) (a b : Handle) : g.DecidesMatches a b where
  ends := hg.matchWithin_eq
  equalTrees := hg.equalTrees_of_typesMatch
  of_homomorphism := fun hf hab => hf.typesMatch hab

/-- Between the tasks of a refinement forward links form no cycle, whatever is left to do. -/
theorem Consistent.decidesMatches {agenda : List Task} (hc : g.Consistent agenda) (a b : Handle) :
    g.DecidesMatches a b :=
  hc.wellFormed.forwardsEnd.decidesMatches a b

/-- **Matching.** If forward links form no cycle, matching any two types ends, says yes only of
equal types, and finds every map between them that respects the structure. -/
theorem decidesMatches_of_acyclic (hacyclic : ∀ h, ¬ Relation.TransGen g.Forwards h h)
    (a b : Handle) : g.DecidesMatches a b :=
  (forwardsEnd_iff_acyclic.2 hacyclic).decidesMatches a b

set_option maxRecDepth 10000 in
/-- In the middle of a refinement two pointers hold each other, one of them through a placeholder
that was just replaced. The map of both to a pointer that holds itself is found, but there is none
the other way. -/
theorem decidesMatches_replaced : ∃ g, initial.play
    [.placeholder, .pointer ⟨9⟩, .refine ⟨9⟩ ⟨10⟩, .placeholder, .pointer ⟨11⟩, .pointer ⟨12⟩] =
      some g ∧
    (∀ h, ¬ Relation.TransGen (g.retire ⟨11⟩ ⟨13⟩).Forwards h h) ∧
    ((g.retire ⟨11⟩ ⟨13⟩).node ⟨12⟩).slots = [⟨11⟩] ∧ (g.retire ⟨11⟩ ⟨13⟩).resolve ⟨11⟩ = ⟨13⟩ ∧
    (g.retire ⟨11⟩ ⟨13⟩).IsHomomorphism (fun _ => ⟨10⟩) ⟨13⟩ ∧
    (g.retire ⟨11⟩ ⟨13⟩).DecidesMatches ⟨13⟩ ⟨10⟩ ∧
    (g.retire ⟨11⟩ ⟨13⟩).EqualTrees ⟨13⟩ ⟨10⟩ ∧ ¬ (g.retire ⟨11⟩ ⟨13⟩).typesMatch ⟨10⟩ ⟨13⟩ := by
  have h : ((initial.play
      [.placeholder, .pointer ⟨9⟩, .refine ⟨9⟩ ⟨10⟩, .placeholder, .pointer ⟨11⟩, .pointer ⟨12⟩]).map
      fun g => ((g.size, (g.node ⟨11⟩).forward, (g.node ⟨13⟩).forward),
        ([⟨10⟩, ⟨12⟩, ⟨13⟩] : List Handle).map fun h =>
          (((g.retire ⟨11⟩ ⟨13⟩).node h).shape, ((g.retire ⟨11⟩ ⟨13⟩).node h).slots,
            (g.retire ⟨11⟩ ⟨13⟩).targets h, (g.retire ⟨11⟩ ⟨13⟩).resolve h),
        (g.retire ⟨11⟩ ⟨13⟩).resolve ⟨11⟩, (g.retire ⟨11⟩ ⟨13⟩).typesMatch ⟨10⟩ ⟨13⟩)) =
        some ((14, none, none),
          [(.pointer, [⟨10⟩], [⟨10⟩], ⟨10⟩), (.pointer, [⟨11⟩], [⟨13⟩], ⟨12⟩),
            (.pointer, [⟨12⟩], [⟨12⟩], ⟨13⟩)], ⟨13⟩, false) := by cbv
  obtain ⟨g, hg, heq⟩ := Option.map_eq_some_iff.1 h
  simp only [List.map_cons, List.map_nil, Prod.mk.injEq, List.cons.injEq, and_true] at heq
  obtain ⟨⟨hsize, hold, hnew⟩, ⟨⟨hshape, hslots, htargets, hresolve⟩,
    ⟨hshape', hslots', htargets', -⟩, hshape'', hslots'', htargets'', hresolve''⟩, hold', hfalse⟩ :=
    heq
  have hend : (g.retire ⟨11⟩ ⟨13⟩).ForwardsEnd :=
    (Reachable.initial.play hg).consistent.wellFormed.forwardsEnd.retire
      (by rw [hsize]; decide) hold hnew (by decide)
  have hacyclic := forwardsEnd_iff_acyclic.1 hend
  have hdecides := decidesMatches_of_acyclic hacyclic ⟨13⟩ ⟨10⟩
  have hunder : ∀ {x}, (g.retire ⟨11⟩ ⟨13⟩).Reaches ⟨13⟩ x → x = ⟨13⟩ ∨ x = ⟨12⟩ := by
    refine fun hr => hr.of_closed (P := fun x => x = ⟨13⟩ ∨ x = ⟨12⟩) ?_ (.inl rfl)
    rintro x (rfl | rfl)
    · simp [htargets'']
    · simp [htargets']
  have hmap : (g.retire ⟨11⟩ ⟨13⟩).IsHomomorphism (fun _ => ⟨10⟩) ⟨13⟩ := by
    constructor <;> intro x hx <;> rcases hunder hx with rfl | rfl
    · exact hshape.trans hshape''.symm
    · exact hshape.trans hshape'.symm
    · rw [hslots, hslots'']; rfl
    · rw [hslots, hslots']; rfl
    · rw [htargets, htargets'']; rfl
    · rw [htargets, htargets']; rfl
    · unfold Node.kind
      rw [hshape'']
      rintro (⟨⟨⟩⟩ | ⟨⟨⟩⟩ | ⟨⟨⟩⟩)
    · unfold Node.kind
      rw [hshape']
      rintro (⟨⟨⟩⟩ | ⟨⟨⟩⟩ | ⟨⟨⟩⟩)
  have hmatch : (g.retire ⟨11⟩ ⟨13⟩).typesMatch ⟨13⟩ ⟨10⟩ :=
    hdecides.of_homomorphism (by rwa [hresolve'']) hresolve.symm
  exact ⟨g, hg, hacyclic, hslots', hold', hmap, hdecides, hdecides.equalTrees hmatch,
    by simp [hfalse]⟩

end TypeGraph.Graph
