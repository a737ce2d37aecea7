import TypeGraph.Graph.Bisimulation
import TypeGraph.Graph.Matching

/-!
# What structural matching decides

`typesMatch` is sound: types that match unfold alike. It finds every agreement that gives each type
on the left one partner at most, as far as the two sides differ.
-/

namespace TypeGraph.Graph

/-- The live types of two slots are the same or related. -/
def SameOr (g : Graph) (R : Handle → Handle → Prop) (s t : Handle) : Prop :=
  g.resolve s = g.resolve t ∨ R (g.resolve s) (g.resolve t)

/-- Two nodes can match, and their slots hold the same types or related ones. -/
structure Pairs (g : Graph) (R : Handle → Handle → Prop) (x y : Handle) : Prop where
  alike : (g.node x).alike (g.node y)
  slots : List.Forall₂ (g.SameOr R) (g.node x).slots (g.node y).slots

theorem shape_eq_of_alike {n m : Node} (h : n.alike m) : n.shape = m.shape := by
  unfold Node.alike at h
  simp only [Bool.and_eq_true, decide_eq_true_eq] at h
  exact h.1.2

theorem isUniqued_of_alike {n m : Node} (h : n.alike m) : n.kind.isUniqued := by
  unfold Node.alike at h
  simp only [Bool.and_eq_true] at h
  exact h.1.1.1

theorem length_slots_eq_of_alike {n m : Node} (h : n.alike m) :
    n.slots.length = m.slots.length := by
  unfold Node.alike at h
  simp only [Bool.and_eq_true, beq_iff_eq] at h
  exact h.2

/-- A relation whose pairs match is, together with equality, a bisimulation. -/
theorem isBisimulation_of_pairs {g : Graph} {R : Handle → Handle → Prop}
    (hR : ∀ x y, R x y → g.Pairs R x y) : g.IsBisimulation g fun x y => x = y ∨ R x y := by
  rintro x y (rfl | hxy)
  · exact ⟨rfl, fun _ => rfl, List.forall₂_same.2 fun _ _ => .inl rfl⟩
  · obtain ⟨ha, hs⟩ := hR x y hxy
    refine ⟨shape_eq_of_alike ha, fun hu => ?_, hs⟩
    rw [isUniqued_of_alike ha] at hu
    cases hu

variable {g : Graph} {partners : Array (Option Handle)} {pairs : List (Handle × Handle)}

theorem forall₂_of_mem_zip {R : Handle → Handle → Prop} {as bs : List Handle}
    (hl : as.length = bs.length) (h : ∀ p ∈ as.zip bs, R p.1 p.2) : List.Forall₂ R as bs :=
  List.forall₂_iff_zip.2 ⟨hl, fun {a b} hab => h (a, b) hab⟩

theorem getElem?_setIfInBounds_self {i : Nat} {h : Handle} (hi : partners[i]? = some none) :
    (partners.setIfInBounds i (some h))[i]? = some (some h) := by
  have hlt := (Array.getElem?_eq_some_iff.1 hi).1
  rw [Array.getElem?_setIfInBounds, if_pos rfl, if_pos hlt]

theorem Handle.eq_of_index_eq {h k : Handle} (hi : h.index = k.index) : h = k := by
  cases h; cases k; cases hi; rfl

/-- A pair of the table was there before or was just set. -/
theorem getElem?_setIfInBounds_some {u x h y : Handle}
    (hi : (partners.setIfInBounds u.index (some h))[x.index]? = some (some y)) :
    partners[x.index]? = some (some y) ∨ u = x ∧ h = y := by
  rw [Array.getElem?_setIfInBounds] at hi
  split at hi
  · next hix =>
    split at hi
    · exact .inr ⟨Handle.eq_of_index_eq hix, by simpa using hi⟩
    · cases hi
  · exact .inl hi

/-- The pairs of the table and of the work left lie in a relation of matching pairs, apart from
what the table held before. -/
theorem exists_of_matchPairs (h : g.matchPairs partners pairs) :
    ∃ R : Handle → Handle → Prop,
      (∀ x y : Handle, partners[x.index]? = some (some y) → R x y) ∧
      (∀ p ∈ pairs, g.SameOr R p.1 p.2) ∧
      ∀ x y, R x y → partners[x.index]? = some (some y) ∨ g.Pairs R x y := by
  fun_induction matchPairs g partners pairs with
  | case1 partners =>
    exact ⟨fun x y => partners[x.index]? = some (some y), fun _ _ h => h,
      fun _ hp => absurd hp List.not_mem_nil, fun _ _ h => .inl h⟩
  | case2 partners a b rest x y hxy ih =>
    obtain ⟨R, htable, hrest, hR⟩ := ih h
    refine ⟨R, htable, fun p hp => ?_, hR⟩
    rcases List.mem_cons.1 hp with rfl | hp
    · exact .inl hxy
    · exact hrest p hp
  | case3 partners a b rest x y hxy halike hnone ih =>
    obtain ⟨R, htable, hrest, hR⟩ := ih h
    have hab : R x y := htable x y (getElem?_setIfInBounds_self hnone)
    refine ⟨R, fun u v huv => htable u v ?_, fun p hp => ?_, fun u v huv => ?_⟩
    · rw [Array.getElem?_setIfInBounds]
      split
      · next hi =>
        rw [← hi, hnone] at huv
        cases huv
      · exact huv
    · rcases List.mem_cons.1 hp with rfl | hp
      · exact .inr hab
      · exact hrest p (List.mem_append_right _ hp)
    · rcases hR u v huv with hold | hpair
      · rcases getElem?_setIfInBounds_some hold with hold | ⟨rfl, rfl⟩
        · exact .inl hold
        · -- the pair that was just set: its slots are the first work left
          exact .inr ⟨halike, forall₂_of_mem_zip (length_slots_eq_of_alike halike)
            fun p hp => hrest p (List.mem_append_left _ hp)⟩
      · exact .inr hpair
  | case4 partners a b rest x y hxy halike hnone ih =>
    rw [Bool.and_eq_true, decide_eq_true_eq] at h
    obtain ⟨R, htable, hrest, hR⟩ := ih h.2
    refine ⟨R, htable, fun p hp => ?_, hR⟩
    rcases List.mem_cons.1 hp with rfl | hp
    · exact .inr (htable x y h.1)
    · exact hrest p hp
  | case5 => cases h

/-- Types that match are the same, or a relation of matching pairs holds of them. -/
theorem exists_of_typesMatch {a b : Handle} (h : g.typesMatch a b) :
    ∃ R, g.SameOr R a b ∧ ∀ x y, R x y → g.Pairs R x y := by
  obtain ⟨R, -, hab, hR⟩ := exists_of_matchPairs h
  refine ⟨R, hab (a, b) List.mem_cons_self, fun x y hxy => (hR x y hxy).resolve_left fun hn => ?_⟩
  rw [Array.getElem?_replicate] at hn
  split at hn <;> cases hn

/-- **Soundness.** Types that match unfold alike. -/
theorem sameUnfolding_of_typesMatch {a b : Handle} (h : g.typesMatch a b) :
    g.SameUnfolding g a b := by
  obtain ⟨R, hab, hR⟩ := exists_of_typesMatch h
  exact ⟨_, isBisimulation_of_pairs hR, hab⟩

/-! ## Completeness -/

/-- Each type on the left has one partner at most. -/
def OnePartner (R : Handle → Handle → Prop) : Prop := ∀ x y y', R x y → R x y' → y = y'

theorem matchPairs_of_pairs {R : Handle → Handle → Prop} (hone : OnePartner R)
    (hR : ∀ x y, R x y → g.Pairs R x y ∧ x.index < partners.size)
    (htable : ∀ x y : Handle, partners[x.index]? = some (some y) → R x y)
    (hpairs : ∀ p ∈ pairs, g.SameOr R p.1 p.2) : g.matchPairs partners pairs := by
  fun_induction matchPairs g partners pairs with
  | case1 => rfl
  | case2 partners a b rest x y hxy ih =>
    exact ih hR htable fun p hp => hpairs p (List.mem_cons_of_mem _ hp)
  | case3 partners a b rest x y hxy halike hnone ih =>
    have hab : R x y := (hpairs (a, b) List.mem_cons_self).resolve_left hxy
    refine ih (fun u v huv => ?_) (fun u v huv => ?_) fun p hp => ?_
    · rw [Array.size_setIfInBounds]
      exact hR u v huv
    · rcases getElem?_setIfInBounds_some huv with huv | ⟨rfl, rfl⟩
      · exact htable u v huv
      · exact hab
    · rcases List.mem_append.1 hp with hp | hp
      · exact (List.forall₂_iff_zip.1 (hR x y hab).1.slots).2 hp
      · exact hpairs p (List.mem_cons_of_mem _ hp)
  | case4 partners a b rest x y hxy halike hnone ih =>
    have hab : R x y := (hpairs (a, b) List.mem_cons_self).resolve_left hxy
    have hlt := (hR x y hab).2
    have hsome : partners[x.index]? = some (some y) := by
      rw [Array.getElem?_eq_getElem hlt] at hnone ⊢
      cases hv : partners[x.index] with
      | none => exact absurd (congrArg some hv) hnone
      | some y' =>
        have hy' : R x y' := htable x y' (by rw [Array.getElem?_eq_getElem hlt, hv])
        rw [hone x y y' hab hy']
    rw [Bool.and_eq_true, decide_eq_true_eq]
    exact ⟨hsome, ih hR htable fun p hp => hpairs p (List.mem_cons_of_mem _ hp)⟩
  | case5 partners a b rest x y hxy halike =>
    have hab : R x y := (hpairs (a, b) List.mem_cons_self).resolve_left hxy
    exact absurd (hR x y hab).1.alike halike

/-- **Completeness.** A relation of matching pairs with one partner for each type on the left makes
two types match. -/
theorem typesMatch_of_pairs {R : Handle → Handle → Prop} (hone : OnePartner R)
    (hR : ∀ x y, R x y → g.Pairs R x y ∧ x.index < g.size) {a b : Handle} (hab : g.SameOr R a b) :
    g.typesMatch a b := by
  refine matchPairs_of_pairs hone (fun x y hxy => ?_) (fun x y hxy => ?_) fun p hp => ?_
  · rw [Array.size_replicate]
    exact hR x y hxy
  · rw [Array.getElem?_replicate] at hxy
    split at hxy <;> cases hxy
  · obtain rfl := List.mem_singleton.1 hp
    exact hab

end TypeGraph.Graph
