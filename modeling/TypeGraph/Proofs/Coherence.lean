import TypeGraph.Proofs.Histories

/-!
# The registry of a reachable graph

Between operations the registry holds just the live types of the uniqued kinds, each under the key
that its node computes, and in the table that its abstractness asks for. So its counts are counts of
the arena, and live types of the uniqued kinds differ in their structure.
-/

namespace TypeGraph.Graph

/-- The registry says of each type what the arena says. -/
structure Coherent (g : Graph) : Prop where
  /-- No type has two entries, and no key. -/
  injective : g.registry.Injective
  /-- Each live type of a uniqued kind is registered under the key of its node. -/
  exists_keyOf? : ∀ {h}, g.Live h → (g.node h).kind.isUniqued →
    ∃ key, g.keyOfNode h = .ok key ∧ g.registry.keyOf? h = some key
  /-- No other type is registered. -/
  entry?_eq_none : ∀ {h}, ¬ (g.Live h ∧ (g.node h).kind.isUniqued) → g.registry.entry? h = none
  /-- Canonical are the concrete ones. -/
  tableOf?_eq_canonical_iff : ∀ {h}, g.registry.tableOf? h = some .canonical ↔
    g.Live h ∧ (g.node h).kind.isUniqued ∧ (g.node h).isAbstract = false
  /-- Provisional are the abstract ones. -/
  tableOf?_eq_provisional_iff : ∀ {h}, g.registry.tableOf? h = some .provisional ↔
    g.Live h ∧ (g.node h).kind.isUniqued ∧ (g.node h).isAbstract
  /-- A key leads back to the one type that is registered under it. -/
  lookup_eq_some_iff : ∀ {key h}, g.registry.lookup key = some h ↔ g.registry.keyOf? h = some key
  /-- No key stands for two types, in one table or in both. -/
  eq_of_lookupIn : ∀ {t t' key h h'}, g.registry.lookupIn t key = some h →
    g.registry.lookupIn t' key = some h' → h = h' ∧ t = t'
  canonicalCount_eq : g.canonicalCount = g.handles.countP fun h =>
    !(g.node h).isRetired && (g.node h).kind.isUniqued && !(g.node h).isAbstract
  provisionalCount_eq : g.provisionalCount = g.handles.countP fun h =>
    !(g.node h).isRetired && (g.node h).kind.isUniqued && (g.node h).isAbstract
  /-- Live types of one kind, payload and components are the same. -/
  eq_of_key_eq : ∀ {h h'}, g.Live h → g.Live h' → (g.node h).kind.isUniqued →
    (g.node h).key = (g.node h').key → h = h'

variable {g : Graph} {h : Handle} {e : Entry}

/-- The entry of a type in a registry that describes the arena. -/
def entryOf (g : Graph) (h : Handle) : Entry :=
  ⟨h, (g.node h).key, if (g.node h).isAbstract then .provisional else .canonical⟩

theorem nodup_handles (g : Graph) : g.handles.Nodup := by
  unfold handles
  exact List.nodup_range.map fun _ _ h => by simpa using h

namespace Consistent

variable (hc : g.Consistent [])

include hc

/-- The entries are those of the live types of the uniqued kinds. -/
theorem mem_entries_iff : e ∈ g.registry.entries ↔
    e = g.entryOf e.handle ∧ g.Live e.handle ∧ (g.node e.handle).kind.isUniqued := by
  constructor
  · intro he
    obtain ⟨hl, hu, hk, ht⟩ := hc.indexed.describes e he
    refine ⟨?_, hl, hu⟩
    unfold entryOf
    rw [← hk, ← ht]
  · rintro ⟨heq, hl, hu⟩
    obtain ⟨e', he', hh⟩ := hc.holds hl hu
    obtain ⟨-, -, hk, ht⟩ := hc.indexed.describes e' he'
    rw [heq]
    unfold entryOf
    rw [← hh, ← hk, ← ht]
    exact he'

theorem entry?_eq_some_iff : g.registry.entry? h = some e ↔
    e = g.entryOf h ∧ g.Live h ∧ (g.node h).kind.isUniqued := by
  rw [hc.indexed.injective.entry?_eq_some_iff, hc.mem_entries_iff]
  constructor
  · rintro ⟨he, rfl⟩
    exact he
  · rintro ⟨rfl, hl⟩
    exact ⟨⟨rfl, hl⟩, rfl⟩

theorem tableOf?_eq_some_iff {t : Table} : g.registry.tableOf? h = some t ↔
    g.Live h ∧ (g.node h).kind.isUniqued ∧
      (if (g.node h).isAbstract then .provisional else .canonical) = t := by
  unfold Registry.tableOf?
  rw [Option.map_eq_some_iff]
  constructor
  · rintro ⟨e, he, rfl⟩
    obtain ⟨rfl, hl, hu⟩ := hc.entry?_eq_some_iff.1 he
    exact ⟨hl, hu, rfl⟩
  · rintro ⟨hl, hu, ht⟩
    exact ⟨_, hc.entry?_eq_some_iff.2 ⟨rfl, hl, hu⟩, ht⟩

/-- A table counts the types that belong in it. -/
theorem count_eq (t : Table) : g.registry.count t = g.handles.countP fun h =>
    !(g.node h).isRetired && (g.node h).kind.isUniqued &&
      decide ((g.entryOf h).table = t) := by
  have hperm : (g.registry.entries.map Entry.handle).Perm
      (g.handles.filter fun h => !(g.node h).isRetired && (g.node h).kind.isUniqued) := by
    refine (List.perm_ext_iff_of_nodup hc.indexed.injective.handles
      (g.nodup_handles.filter _)).2 fun h => ?_
    rw [List.mem_map, List.mem_filter, mem_handles, Bool.and_eq_true, Bool.not_eq_true',
      isRetired_eq_false_iff]
    constructor
    · rintro ⟨e, he, rfl⟩
      obtain ⟨-, hl, hu⟩ := hc.mem_entries_iff.1 he
      exact ⟨WellFormed.lt_of_isUniqued hu, hl, hu⟩
    · rintro ⟨-, hl, hu⟩
      exact ⟨g.entryOf h, hc.mem_entries_iff.2 ⟨rfl, hl, hu⟩, rfl⟩
  calc g.registry.count t
    _ = g.registry.entries.countP ((fun h => decide ((g.entryOf h).table = t)) ∘ Entry.handle) := by
      unfold Registry.count
      refine List.countP_congr fun e he => ?_
      rw [Function.comp_apply, ← (hc.mem_entries_iff.1 he).1]
    _ = (g.registry.entries.map Entry.handle).countP fun h =>
        decide ((g.entryOf h).table = t) := List.countP_map.symm
    _ = _ := by
      rw [hperm.countP_eq, List.countP_filter]
      exact List.countP_congr fun h _ => by rw [Bool.and_comm]

theorem coherent : g.Coherent where
  injective := hc.indexed.injective
  exists_keyOf? := by
    intro h hl hu
    refine ⟨(g.node h).key, hc.wellFormed.keyOfNode_eq hl hu, ?_⟩
    unfold Registry.keyOf?
    rw [hc.entry?_eq_some_iff.2 ⟨rfl, hl, hu⟩]
    rfl
  entry?_eq_none := by
    intro h hn
    refine Option.eq_none_iff_forall_ne_some.2 fun e he => ?_
    exact hn (hc.entry?_eq_some_iff.1 he).2
  tableOf?_eq_canonical_iff := by
    intro h
    rw [hc.tableOf?_eq_some_iff]
    cases (g.node h).isAbstract <;> simp
  tableOf?_eq_provisional_iff := by
    intro h
    rw [hc.tableOf?_eq_some_iff]
    cases (g.node h).isAbstract <;> simp
  lookup_eq_some_iff := by
    intro key h
    unfold Registry.keyOf?
    rw [hc.indexed.injective.lookup_eq_some_iff, Option.map_eq_some_iff]
    simp only [hc.indexed.injective.entry?_eq_some_iff]
    exact exists_congr fun e => by tauto
  eq_of_lookupIn := by
    intro t t' key h h' hl hl'
    obtain ⟨e, he, rfl, hk, rfl⟩ := Registry.exists_mem_of_lookupIn hl
    obtain ⟨e', he', rfl, hk', rfl⟩ := Registry.exists_mem_of_lookupIn hl'
    obtain rfl := hc.indexed.injective.eq_of_key he he' (hk.trans hk'.symm)
    exact ⟨rfl, rfl⟩
  canonicalCount_eq := by
    unfold canonicalCount
    rw [hc.count_eq]
    refine List.countP_congr fun h _ => ?_
    unfold entryOf
    cases (g.node h).isAbstract <;> simp
  provisionalCount_eq := by
    unfold provisionalCount
    rw [hc.count_eq]
    refine List.countP_congr fun h _ => ?_
    unfold entryOf
    cases (g.node h).isAbstract <;> simp
  eq_of_key_eq := by
    intro h h' hl hl' hu hk
    have hu' : (g.node h').kind.isUniqued := by
      have hs : (g.node h).shape = (g.node h').shape := congrArg Key.shape hk
      rwa [Node.kind, hs] at hu
    exact hc.indexed.eq_of_key_eq (hc.holds hl hu) (hc.holds hl' hu') hk

end Consistent

/-- **Coherence.** The registry of a reachable graph says of each type what the arena says. -/
theorem Reachable.registry_coherent (hg : Reachable g) : g.Coherent := hg.consistent.coherent

set_option maxRecDepth 10000 in
/-- Two lists closed through different placeholders, the second merged into the first, and a third
one still open. -/
theorem coherent_lists : ∃ g, initial.play
    [.placeholder, .pointer ⟨9⟩, .struct [.i32, ⟨10⟩] false, .refine ⟨9⟩ ⟨11⟩,
      .placeholder, .pointer ⟨12⟩, .struct [.i32, ⟨13⟩] false, .refine ⟨12⟩ ⟨14⟩,
      .placeholder, .pointer ⟨15⟩, .struct [.i32, ⟨16⟩] false] = some g ∧
    g.Coherent ∧ g.canonicalCount = 7 ∧ g.provisionalCount = 2 := by
  have h : ((initial.play
      [.placeholder, .pointer ⟨9⟩, .struct [.i32, ⟨10⟩] false, .refine ⟨9⟩ ⟨11⟩,
        .placeholder, .pointer ⟨12⟩, .struct [.i32, ⟨13⟩] false, .refine ⟨12⟩ ⟨14⟩,
        .placeholder, .pointer ⟨15⟩, .struct [.i32, ⟨16⟩] false]).map fun g =>
      (g.canonicalCount, g.provisionalCount)) = some (7, 2) := by cbv
  obtain ⟨g, hg, hcounts⟩ := Option.map_eq_some_iff.1 h
  rw [Prod.mk.injEq] at hcounts
  exact ⟨g, hg, (Reachable.initial.play hg).registry_coherent, hcounts⟩

end TypeGraph.Graph
