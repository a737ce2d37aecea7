import TypeGraph.Graph.Reachability
import TypeGraph.Proofs.WellFormed

/-!
# The group of a promotion

The types that a promotion makes concrete are live and abstract, hold only each other and concrete
types, and are none of them placeholders. If an abstract start is not among them, then it reaches a
placeholder or a retired type through abstract types.
-/

namespace TypeGraph.Graph

/-- The types that an abstract type holds; a concrete type is not looked into. -/
def abstractSlots (g : Graph) (h : Handle) : List Handle :=
  if (g.node h).isAbstract then (g.node h).slots else []

variable {g : Graph} {start h s : Handle}

theorem mem_abstractSlots :
    s ∈ g.abstractSlots h ↔ (g.node h).isAbstract ∧ s ∈ (g.node h).slots := by
  unfold abstractSlots
  split <;> simp_all

theorem mem_abstractReach : h ∈ g.abstractReach start ↔ Reached g.size g.abstractSlots [start] h :=
  mem_reachFrom

theorem blocks_eq_false_iff : g.blocks h = false ↔ (g.node h).isPlaceholder = false ∧ g.Live h := by
  unfold blocks
  rw [Bool.or_eq_false_iff, isRetired_eq_false_iff]

theorem mem_promotable : h ∈ g.promotable start ↔
    (∀ b ∈ g.abstractReach start, g.blocks b = false) ∧ h ∈ g.abstractReach start ∧
      (g.node h).isAbstract := by
  unfold promotable
  simp only
  by_cases hb : (g.abstractReach start).any g.blocks
  · rw [if_pos hb]
    obtain ⟨b, hm, hb⟩ := List.any_eq_true.1 hb
    exact ⟨fun hh => absurd hh List.not_mem_nil, fun hh => by simp [hh.1 b hm] at hb⟩
  · rw [if_neg hb, List.mem_filter]
    refine ⟨fun hh => ⟨fun b hm => ?_, hh⟩, fun hh => hh.2⟩
    exact Bool.eq_false_iff.2 fun h => hb (List.any_eq_true.2 ⟨b, hm, h⟩)

theorem live_of_mem_promotable (hh : h ∈ g.promotable start) : g.Live h :=
  have ⟨hall, hm, _⟩ := mem_promotable.1 hh
  (blocks_eq_false_iff.1 (hall h hm)).2

theorem not_placeholder_of_mem_promotable (hh : h ∈ g.promotable start) :
    (g.node h).isPlaceholder = false :=
  have ⟨hall, hm, _⟩ := mem_promotable.1 hh
  (blocks_eq_false_iff.1 (hall h hm)).1

/-- A promoted type holds only promoted types and concrete ones. -/
theorem promotable_closed (hg : g.WellFormed) (hh : h ∈ g.promotable start)
    (hs : s ∈ (g.node h).slots) :
    g.Live s ∧ ((g.node s).isAbstract → s ∈ g.promotable start) := by
  obtain ⟨hall, hm, ha⟩ := mem_promotable.1 hh
  have hs' : s ∈ g.abstractReach start :=
    mem_abstractReach.2 (.step (mem_abstractReach.1 hm) (mem_abstractSlots.2 ⟨ha, hs⟩)
      (hg.slots_lt hs))
  exact ⟨(blocks_eq_false_iff.1 (hall s hs')).2, fun has => mem_promotable.2 ⟨hall, hs', has⟩⟩

/-- An abstract type that is not promoted reaches what blocks its promotion. -/
theorem exists_blocks_of_not_mem_promotable (ha : (g.node start).isAbstract)
    (hn : start ∉ g.promotable start) :
    ∃ b, Reached g.size g.abstractSlots [start] b ∧ g.blocks b := by
  by_contra hno
  refine hn (mem_promotable.2 ⟨fun b hb => Bool.eq_false_iff.2 fun h => ?_, ?_, ha⟩)
  · exact hno ⟨b, mem_abstractReach.1 hb, h⟩
  · exact mem_abstractReach.2 (.start List.mem_cons_self (WellFormed.lt_of_isAbstract ha))

theorem WellFormed.promote (hg : g.WellFormed) (start : Handle) : (g.promote start).1.WellFormed :=
  hg.concretizeAll (fun _ hh => not_placeholder_of_mem_promotable hh)
    fun _ hh _ hs => promotable_closed hg hh hs

/-- Promotion leaves retired types alone. -/
theorem node_promote_of_retired {k : Handle} (start : Handle) (hk : ¬ g.Live k) :
    (g.promote start).1.node k = g.node k := by
  show (g.concretizeAll (g.promotable start)).node k = g.node k
  rw [node_concretizeAll, if_neg fun hm => hk (live_of_mem_promotable hm)]

section Nodes

variable (g : Graph) (start k : Handle)

theorem size_promote : (g.promote start).1.size = g.size := size_concretizeAll ..

theorem shape_promote : ((g.promote start).1.node k).shape = (g.node k).shape :=
  shape_concretizeAll ..

theorem slots_promote : ((g.promote start).1.node k).slots = (g.node k).slots :=
  slots_concretizeAll ..

theorem forward_promote : ((g.promote start).1.node k).forward = (g.node k).forward :=
  forward_concretizeAll ..

theorem live_promote : (g.promote start).1.Live k ↔ g.Live k := live_concretizeAll ..

theorem isAbstract_promote :
    ((g.promote start).1.node k).isAbstract =
      if k ∈ g.promotable start then false else (g.node k).isAbstract :=
  isAbstract_concretizeAll ..

end Nodes

end TypeGraph.Graph
