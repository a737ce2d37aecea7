import Mathlib
import TypeGraph.Proofs.Attendance
import TypeGraph.Proofs.Coherence

/-!
# The observers of a type are the slots and subscriptions that hold it

Between operations a live abstract type counts each owner once for each of its slots that holds the
type, and each subscription that tracks it once. All other types count nobody. So the number of
observers of a type is the number of slots and subscriptions that hold it.
-/

namespace TypeGraph.Graph

/-- Each type counts just the slots and subscriptions that it is told of. -/
structure ObserversExact (g : Graph) : Prop where
  /-- A live abstract type counts an owner once for each slot that holds it. -/
  count_owners_eq : ∀ {h}, g.Live h → (g.node h).isAbstract → ∀ o,
    (g.node h).owners.count o = (g.node o).slots.count h
  /-- It counts each subscription that tracks it once, and no other. -/
  count_watchers_eq : ∀ {h}, g.Live h → (g.node h).isAbstract → ∀ id,
    (g.node h).watchers.count id = if g.tracked? id = some h then 1 else 0
  /-- An owner is among the observers just if one of its slots holds the type. -/
  owner_mem_observers_iff : ∀ {h}, g.Live h → (g.node h).isAbstract → ∀ o,
    .owner o ∈ g.observers h ↔ h ∈ (g.node o).slots
  /-- A listener is among the observers just if its subscription tracks the type. -/
  listener_mem_observers_iff : ∀ {h}, g.Live h → (g.node h).isAbstract → ∀ id,
    .listener id ∈ g.observers h ↔ g.tracked? id = some h
  /-- Concrete types and retired types count nobody. -/
  eq_nil : ∀ {h}, ¬ (g.Live h ∧ (g.node h).isAbstract) →
    (g.node h).owners = [] ∧ (g.node h).watchers = [] ∧ g.observers h = []
  /-- The number of observers is the number of slots and subscriptions that hold the type. -/
  observerCount_eq : ∀ {h}, g.Live h → (g.node h).isAbstract →
    g.observerCount h =
      (g.handles.map fun o => (g.node o).slots.count h).sum + g.subscriptions.count (some h)
  observerCount_eq_zero : ∀ {h}, ¬ (g.Live h ∧ (g.node h).isAbstract) → g.observerCount h = 0

variable {g : Graph} {h : Handle}

/-- A list is as long as its members occur in it, taken together. -/
theorem sum_map_count {α : Type} [DecidableEq α] {all l : List α} (hall : all.Nodup)
    (hl : ∀ a ∈ l, a ∈ all) : (all.map l.count).sum = l.length := by
  calc (all.map l.count).sum
    _ = ∑ a ∈ all.toFinset, l.count a := (List.sum_toFinset _ hall).symm
    _ = ∑ a ∈ all.toFinset, (l : Multiset α).count a := by simp only [Multiset.coe_count]
    _ = l.length := Multiset.sum_count_eq_card fun a ha => List.mem_toFinset.2 (hl a ha)

/-- All subscriptions that there ever were. -/
def listeners (g : Graph) : List ListenerId := (List.range g.subscriptions.size).map ListenerId.mk

theorem mem_listeners {id : ListenerId} : id ∈ g.listeners ↔ id.index < g.subscriptions.size := by
  unfold listeners
  rw [List.mem_map]
  constructor
  · rintro ⟨i, hi, rfl⟩
    exact List.mem_range.1 hi
  · intro hi
    exact ⟨id.index, List.mem_range.2 hi, rfl⟩

theorem nodup_listeners (g : Graph) : g.listeners.Nodup := by
  unfold listeners
  exact List.nodup_range.map fun _ _ h => by simpa using h

theorem map_tracked?_listeners (g : Graph) :
    g.listeners.map g.tracked? = g.subscriptions.toList := by
  refine List.ext_getElem (by simp [listeners]) fun i hi hi' => ?_
  simp only [listeners, List.map_map, List.getElem_map, List.getElem_range, Function.comp_apply,
    tracked?]
  rw [Array.getElem?_eq_getElem (by simpa using hi')]
  rfl

/-- Owners are in the arena. -/
theorem OwnersCounted.lt_of_mem_owners (hc : g.OwnersCounted) {o : Handle}
    (ho : o ∈ (g.node h).owners) : o.index < g.size := by
  by_contra hb
  have hs := hc.mem_slots ho
  rw [node_of_size_le (Nat.le_of_not_lt hb)] at hs
  cases hs

/-- There are as many owners as slots that hold the type. -/
theorem OwnersCounted.length_owners (hc : g.OwnersCounted)
    (hh : (g.node h).isAbstract ∨ ¬ g.Live h) :
    (g.node h).owners.length = (g.handles.map fun o => (g.node o).slots.count h).sum := by
  rw [← sum_map_count g.nodup_handles fun o ho => mem_handles.2 (hc.lt_of_mem_owners ho)]
  congr 1
  exact List.map_congr_left fun o _ => hc.count_eq o hh

/-- No subscription watches a type twice. -/
theorem WatchersCounted.nodup_watchers (hw : g.WatchersCounted)
    (hh : (g.node h).isAbstract ∨ ¬ g.Live h) : (g.node h).watchers.Nodup := by
  apply List.nodup_iff_count_le_one.2
  intro id
  rw [hw.count_eq id hh]
  split <;> omega

/-- There are as many watchers as subscriptions that track the type. -/
theorem WatchersCounted.length_watchers (hw : g.WatchersCounted)
    (hh : (g.node h).isAbstract ∨ ¬ g.Live h) :
    (g.node h).watchers.length = g.subscriptions.count (some h) := by
  have hperm : (g.node h).watchers.Perm (g.listeners.filter fun id => g.tracked? id = some h) := by
    apply (List.perm_ext_iff_of_nodup (hw.nodup_watchers hh) (g.nodup_listeners.filter _)).2
    intro id
    rw [hw.mem_watchers_iff hh, List.mem_filter, decide_eq_true_eq, mem_listeners]
    exact ⟨fun ht => ⟨lt_of_tracked? ht, ht⟩, fun ht => ht.2⟩
  calc (g.node h).watchers.length
    _ = g.listeners.countP fun id => g.tracked? id = some h := by
      rw [hperm.length_eq, List.countP_eq_length_filter]
    _ = (g.listeners.map g.tracked?).countP fun t => t = some h := by
      rw [List.countP_map]
      rfl
    _ = g.subscriptions.count (some h) := by
      rw [map_tracked?_listeners, ← Array.count_toList]
      exact List.countP_congr fun t _ => by simp

theorem observers_eq_nil (howners : (g.node h).owners = []) (hwatchers : (g.node h).watchers = []) :
    g.observers h = [] := by
  unfold observers Node.observers
  rw [howners, hwatchers]
  simp

/-- With no task left only live abstract types count observers. -/
theorem Attended.eq_nil (ha : g.Attended []) (hn : ¬ (g.Live h ∧ (g.node h).isAbstract)) :
    (g.node h).owners = [] ∧ (g.node h).watchers = [] := by
  by_cases hl : g.Live h
  · have habs : (g.node h).isAbstract = false :=
      Bool.eq_false_iff.2 fun h => hn ⟨hl, h⟩
    exact ⟨ha.owners.nil hl habs, ha.watchers.nil hl habs⟩
  · constructor
    · refine List.eq_nil_iff_forall_not_mem.2 fun o ho => ?_
      obtain ⟨_, _, hm, _⟩ := ha.pending_of_owner hl ho
      cases hm
    · refine List.eq_nil_iff_forall_not_mem.2 fun id hm => ?_
      exact hl (ha.live_of_tracked (ha.watchers.tracked?_eq hm))

theorem Attended.observersExact (ha : g.Attended []) : g.ObserversExact where
  count_owners_eq := fun _ habs o => ha.owners.count_eq o (.inl habs)
  count_watchers_eq := fun _ habs id => ha.watchers.count_eq id (.inl habs)
  owner_mem_observers_iff := by
    intro h _ habs o
    unfold observers
    rw [Node.owner_mem_observers, ha.owners.mem_owners_iff (.inl habs)]
  listener_mem_observers_iff := by
    intro h _ habs id
    unfold observers
    rw [Node.mem_observers, Node.isObservedBy_listener, ha.watchers.mem_watchers_iff (.inl habs)]
  eq_nil := by
    intro h hn
    obtain ⟨howners, hwatchers⟩ := ha.eq_nil hn
    exact ⟨howners, hwatchers, observers_eq_nil howners hwatchers⟩
  observerCount_eq := by
    intro h _ habs
    unfold observerCount Node.observerCount
    rw [ha.owners.length_owners (.inl habs), ha.watchers.length_watchers (.inl habs)]
  observerCount_eq_zero := by
    intro h hn
    obtain ⟨howners, hwatchers⟩ := ha.eq_nil hn
    unfold observerCount Node.observerCount
    rw [howners, hwatchers]
    rfl

/-- **Exact observers.** In a reachable graph the observers of each type are the slots and the
subscriptions that hold it, as long as it is abstract. -/
theorem Reachable.observers_exact (hg : Reachable g) : g.ObserversExact :=
  hg.attended.observersExact

set_option maxRecDepth 10000 in
/-- A placeholder in two slots of a structure and one of a pointer, watched twice and left once. A
second pointer to it came to be when another placeholder was refined, and was merged. -/
theorem observersExact_shared : ∃ g, initial.play
    [.placeholder, .struct [⟨9⟩, .i32, ⟨9⟩] false, .pointer ⟨9⟩, .subscribe ⟨9⟩, .subscribe ⟨9⟩,
      .placeholder, .pointer ⟨12⟩, .subscribe ⟨12⟩, .refine ⟨12⟩ ⟨9⟩, .unsubscribe ⟨0⟩] = some g ∧
    g.ObserversExact ∧ g.observerCount ⟨9⟩ = 5 ∧
    g.observers ⟨9⟩ = [.owner ⟨10⟩, .owner ⟨11⟩, .listener ⟨1⟩, .listener ⟨2⟩] ∧
    g.observers ⟨12⟩ = [] := by
  have h : ((initial.play
      [.placeholder, .struct [⟨9⟩, .i32, ⟨9⟩] false, .pointer ⟨9⟩, .subscribe ⟨9⟩, .subscribe ⟨9⟩,
        .placeholder, .pointer ⟨12⟩, .subscribe ⟨12⟩, .refine ⟨12⟩ ⟨9⟩,
        .unsubscribe ⟨0⟩]).map fun g =>
      (g.observerCount ⟨9⟩, g.observers ⟨9⟩, g.observers ⟨12⟩)) =
        some (5, [.owner ⟨10⟩, .owner ⟨11⟩, .listener ⟨1⟩, .listener ⟨2⟩], []) := by cbv
  obtain ⟨g, hg, heq⟩ := Option.map_eq_some_iff.1 h
  rw [Prod.mk.injEq, Prod.mk.injEq] at heq
  exact ⟨g, hg, (Reachable.initial.play hg).observers_exact, heq⟩

end TypeGraph.Graph
