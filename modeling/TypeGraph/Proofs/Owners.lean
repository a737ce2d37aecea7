import TypeGraph.Proofs.WellFormed

/-!
# The owners of a type are the slots that hold it

A type that is abstract, or retired and still held, counts each owner once for each of its slots. A
concrete type counts no one. Retiring, moving slots and promotion keep these counts.
-/

namespace TypeGraph.Graph

/-- Abstract and retired types count their owners by slots, and concrete types count none. -/
structure OwnersCounted (g : Graph) : Prop where
  count_eq : ∀ {h} (o : Handle), (g.node h).isAbstract ∨ ¬ g.Live h →
    (g.node h).owners.count o = (g.node o).slots.count h
  nil : ∀ {h}, g.Live h → (g.node h).isAbstract = false → (g.node h).owners = []

theorem eq_nil_of_count {α : Type} [DecidableEq α] {l : List α} (h : ∀ a, l.count a = 0) : l = [] :=
  List.eq_nil_iff_forall_not_mem.2 fun a => List.count_eq_zero.1 (h a)

theorem count_map_move_old {old new : Handle} (hne : old ≠ new) (l : List Handle) :
    (l.map fun s => if s = old then new else s).count old = 0 := by
  rw [List.count_eq_zero]
  intro hm
  obtain ⟨s, -, hs⟩ := List.mem_map.1 hm
  split at hs
  · exact hne hs.symm
  · next h => exact h hs

theorem count_map_move {old new h : Handle} (hh : h ≠ old) (l : List Handle) :
    (l.map fun s => if s = old then new else s).count h =
      l.count h + if new = h then l.count old else 0 := by
  induction l with
  | nil => simp
  | cons s l ih =>
    rw [List.map_cons, List.count_cons, List.count_cons, List.count_cons, ih]
    by_cases hs : s = old
    · subst hs
      by_cases hn : new = h <;> simp [hn, hh.symm]
      omega
    · by_cases hn : new = h <;> by_cases hsh : s = h <;> simp [hs, hh, hn, hsh]
      omega

variable {g g' : Graph} {h old new owner : Handle}

namespace OwnersCounted

/-- The owner of a slot that holds an abstract or retired type is counted there. -/
theorem mem_owners_iff (hc : g.OwnersCounted) (hh : (g.node h).isAbstract ∨ ¬ g.Live h) :
    owner ∈ (g.node h).owners ↔ h ∈ (g.node owner).slots := by
  rw [← List.count_pos_iff, hc.count_eq owner hh, List.count_pos_iff]

/-- Whoever is counted holds the type. -/
theorem mem_slots (hc : g.OwnersCounted) (ho : owner ∈ (g.node h).owners) :
    h ∈ (g.node owner).slots := by
  by_cases hh : (g.node h).isAbstract ∨ ¬ g.Live h
  · exact (hc.mem_owners_iff hh).1 ho
  · rw [not_or, not_not, Bool.not_eq_true] at hh
    rw [hc.nil hh.2 hh.1] at ho
    cases ho

theorem congr (hc : g.OwnersCounted) (hb : ∀ k, (g'.node k).bare = (g.node k).bare)
    (ho : ∀ k, (g'.node k).owners = (g.node k).owners) : g'.OwnersCounted := by
  have hslots : ∀ k, (g'.node k).slots = (g.node k).slots := fun k =>
    Node.slots_of_bare (hb k)
  have habs : ∀ k, (g'.node k).isAbstract = (g.node k).isAbstract := fun k =>
    Node.isAbstract_of_bare (hb k)
  have hlive : ∀ k, g'.Live k ↔ g.Live k := fun k => live_of_bare (hb k)
  constructor
  · intro h o
    rw [habs, hlive, ho, hslots]
    exact hc.count_eq o
  · intro h
    rw [hlive, habs, ho]
    exact hc.nil

theorem retire (hc : g.OwnersCounted) (hold : (g.node old).isAbstract) (new : Handle) :
    (g.retire old new).OwnersCounted := by
  have hb := WellFormed.lt_of_isAbstract hold
  have hcount := fun k => g.count_owners_retire old new k
  constructor
  · intro h o hh
    have hh' : (g.node h).isAbstract ∨ ¬ g.Live h := by
      unfold Live at hh ⊢
      rw [isAbstract_retire new h hb, forward_retire new h hb] at hh
      by_cases hk : h = old
      · exact .inl (hk ▸ hold)
      · simpa [hk] using hh
    rw [hcount, hc.count_eq o hh', slots_retire new o hb]
    by_cases ho : o = old
    · subst ho
      simp
    · simp [ho, Ne.symm ho]
  · intro h hl ha
    refine eq_nil_of_count fun a => ?_
    unfold Live at hl
    rw [forward_retire new h hb] at hl
    rw [isAbstract_retire new h hb] at ha
    split at hl
    · cases hl
    · next hk =>
      rw [if_neg hk] at ha
      rw [hcount, hc.nil hl ha, List.count_nil, Nat.zero_sub]

theorem retarget (hc : g.OwnersCounted) (hold : ¬ g.Live old) (hnew : g.Live new) :
    (g.retarget owner old new).OwnersCounted := by
  have hne : old ≠ new := by
    rintro rfl
    exact hold hnew
  have hlive := fun k => g.live_retarget owner old new k
  constructor
  · intro h o hh
    rw [hlive, isAbstract_retarget] at hh
    rw [count_owners_retarget g owner h hne, hc.count_eq o hh, slots_retarget]
    by_cases ho : o = owner
    · subst ho
      rw [if_pos rfl]
      by_cases hold' : h = old
      · subst hold'
        rw [count_map_move_old hne]
        simp [hne.symm]
      · rw [count_map_move hold']
        by_cases hnew' : new = h
        · subst hnew'
          have hobs : (g.node new).isObservable := by
            unfold Node.isObservable
            rw [isRetired_eq_false_iff.2 hnew]
            simpa using hh.resolve_right (not_not.2 hnew)
          simp [hobs, hne]
        · simp [hnew', Ne.symm hold']
    · simp [ho, Ne.symm ho]
  · intro h hl ha
    rw [hlive] at hl
    rw [isAbstract_retarget] at ha
    refine eq_nil_of_count fun a => ?_
    have hobs : (g.node h).isObservable = false := by
      unfold Node.isObservable
      rw [ha, Bool.false_and]
    rw [count_owners_retarget g owner h hne, hc.nil hl ha, hobs]
    simp

theorem concretizeAll (hc : g.OwnersCounted) {group : List Handle} (hl : ∀ h ∈ group, g.Live h) :
    (g.concretizeAll group).OwnersCounted := by
  have hslots := fun k => g.slots_concretizeAll k group
  have hlive := fun k => g.live_concretizeAll k group
  constructor
  · intro h o hh
    rw [hlive] at hh
    rw [hslots]
    rw [node_concretizeAll] at hh ⊢
    split at hh
    · next hm => exact absurd (hl h hm) (hh.resolve_left (by simp))
    · next hm =>
      rw [if_neg hm]
      exact hc.count_eq o hh
  · intro h hl' ha
    rw [hlive] at hl'
    rw [node_concretizeAll] at ha ⊢
    split at ha
    · next hm => rw [if_pos hm]
    · next hm =>
      rw [if_neg hm]
      exact hc.nil hl' ha

end OwnersCounted

end TypeGraph.Graph
