import TypeGraph.Proofs.Agenda
import TypeGraph.Proofs.Registry
import TypeGraph.Proofs.WellFormed

/-!
# The registry describes the arena

Each entry of the registry is of a live type, under its own shape and slots, and is final when the
type is concrete. The changes of a refinement keep that, as long as the slots of a type move only
while it is out of the registry.
-/

namespace TypeGraph.Graph

/-- The entry is of a live type under its structure, and final when the type is concrete. -/
structure Describes (g : Graph) (e : Entry) : Prop where
  live : g.Live e.handle
  isUniqued : (g.node e.handle).kind.isUniqued
  key_eq : e.key = (g.node e.handle).key
  table_eq : e.table = if (g.node e.handle).isAbstract then .provisional else .canonical

/-- The registry is a one-to-one table of live types under their structure. -/
structure Indexed (g : Graph) : Prop where
  injective : g.registry.Injective
  describes : ∀ e ∈ g.registry.entries, g.Describes e

variable {g g' : Graph} {e : Entry} {h k old new owner : Handle}

theorem Describes.of_node (he : g.Describes e)
    (hb : (g'.node e.handle).bare = (g.node e.handle).bare) : g'.Describes e := by
  have hshape : (g'.node e.handle).shape = (g.node e.handle).shape :=
    Node.shape_of_bare hb
  have hslots : (g'.node e.handle).slots = (g.node e.handle).slots :=
    Node.slots_of_bare hb
  have habs : (g'.node e.handle).isAbstract = (g.node e.handle).isAbstract :=
    Node.isAbstract_of_bare hb
  have hfwd : (g'.node e.handle).forward = (g.node e.handle).forward :=
    Node.forward_of_bare hb
  obtain ⟨hl, hu, hk, ht⟩ := he
  constructor
  · unfold Live
    rwa [hfwd]
  · rwa [Node.kind, hshape]
  · rwa [Node.key, hshape, hslots]
  · rwa [habs]

namespace Indexed

/-- A type is registered under its own structure only. -/
theorem eq_of_key_eq (hi : g.Indexed) (hh : g.registry.Holds h) (hk : g.registry.Holds k)
    (heq : (g.node h).key = (g.node k).key) : h = k := by
  obtain ⟨e, he, rfl⟩ := hh
  obtain ⟨e', he', rfl⟩ := hk
  rw [hi.injective.eq_of_key he he']
  rw [(hi.describes e he).key_eq, (hi.describes e' he').key_eq, heq]

theorem lt_of_holds (hi : g.Indexed) (hh : g.registry.Holds h) : h.index < g.size := by
  obtain ⟨e, he, rfl⟩ := hh
  exact WellFormed.lt_of_isUniqued (hi.describes e he).isUniqued

theorem live_of_holds (hi : g.Indexed) (hh : g.registry.Holds h) : g.Live h := by
  obtain ⟨e, he, rfl⟩ := hh
  exact (hi.describes e he).live

/-- What `lookup` finds is live and has the key as its structure. -/
theorem of_lookup (hi : g.Indexed) {key : Key} (hl : g.registry.lookup key = some h) :
    g.registry.Holds h ∧ (g.node h).key = key := by
  obtain ⟨e, he, rfl, rfl⟩ := Registry.exists_mem_of_lookup hl
  exact ⟨⟨e, he, rfl⟩, (hi.describes e he).key_eq.symm⟩

theorem lookup_key (hi : g.Indexed) (hh : g.registry.Holds h) :
    g.registry.lookup (g.node h).key = some h := by
  obtain ⟨e, he, rfl⟩ := hh
  exact hi.injective.lookup_eq_some_iff.2 ⟨e, he, (hi.describes e he).key_eq, rfl⟩

/-- A type of the same structure is another registered type. It has the same key, or the owner is
on a cycle and matches it. -/
theorem of_equivalent? (hi : g.Indexed) {key : Key} (he : g.equivalent? owner key = some h) :
    g.registry.Holds h ∧ h ≠ owner ∧
      ((g.node h).key = key ∨ (g.node h).key.outline = key.outline ∧ g.typesMatch owner h) := by
  unfold equivalent? at he
  rw [Option.orElse_eq_orElse, Option.orElse_eq_or] at he
  rcases Option.or_eq_some_iff.1 he with he | ⟨-, he⟩
  · obtain ⟨hl, hne⟩ := Option.filter_eq_some_iff.1 he
    obtain ⟨hh, hk⟩ := hi.of_lookup hl
    exact ⟨hh, by simpa using hne, .inl hk⟩
  · split at he
    · obtain ⟨e, hm, ho, rfl⟩ := Registry.mem_candidates.1 (List.mem_of_find?_eq_some he)
      have hp := List.find?_some he
      rw [Bool.and_eq_true, decide_eq_true_eq] at hp
      rw [(hi.describes e hm).key_eq] at ho
      exact ⟨⟨e, hm, rfl⟩, hp.1, .inr ⟨ho, hp.2⟩⟩
    · cases he

/-- If there is no type of the same structure, then none has the key, and if the owner is on a cycle
it matches no other type of its outline. -/
theorem of_equivalent?_none (hi : g.Indexed) {key : Key} (he : g.equivalent? owner key = none)
    (hh : g.registry.Holds h) (hne : h ≠ owner) :
    (g.node h).key ≠ key ∧
      (g.onCycle owner → (g.node h).key.outline = key.outline → ¬ g.typesMatch owner h) := by
  unfold equivalent? at he
  rw [Option.orElse_eq_orElse, Option.orElse_eq_or, Option.or_eq_none_iff] at he
  obtain ⟨hl, hm⟩ := he
  refine ⟨fun hk => ?_, fun hc ho hmatch => ?_⟩
  · rw [← hk, hi.lookup_key hh] at hl
    simp [hne] at hl
  · rw [if_pos hc, List.find?_eq_none] at hm
    obtain ⟨e, hmem, rfl⟩ := hh
    rw [← (hi.describes e hmem).key_eq] at ho
    have hn := hm _ (Registry.mem_candidates.2 ⟨e, hmem, ho, rfl⟩)
    simp [hne, hmatch] at hn

theorem congr (hi : g.Indexed) (hr : g'.registry = g.registry)
    (hb : ∀ k, (g'.node k).bare = (g.node k).bare) : g'.Indexed := by
  constructor
  · rw [hr]
    exact hi.injective
  · intro e he
    rw [hr] at he
    exact (hi.describes e he).of_node (hb _)

theorem unregister (hi : g.Indexed) (h : Handle) : (g.unregister h).Indexed :=
  ⟨hi.injective.remove h, fun e he =>
    (hi.describes e (Registry.mem_remove.1 he).1).of_node rfl⟩

theorem retire (hi : g.Indexed) (hb : old.index < g.size) (new : Handle) :
    (g.retire old new).Indexed := by
  constructor
  · rw [registry_retire]
    exact hi.injective.remove old
  · intro e he
    rw [registry_retire] at he
    obtain ⟨he, hne⟩ := Registry.mem_remove.1 he
    apply (hi.describes e he).of_node
    rw [bare_retire new e.handle hb, if_neg hne]

theorem retarget (hi : g.Indexed) (howner : ¬ g.registry.Holds owner) (old new : Handle) :
    (g.retarget owner old new).Indexed := by
  constructor
  · rw [registry_retarget]
    exact hi.injective
  · intro e he
    rw [registry_retarget] at he
    apply (hi.describes e he).of_node
    rw [bare_retarget, if_neg fun h => howner ⟨e, he, h⟩]

/-- The owner leaves the registry before its slots move. -/
theorem rewire (hi : g.Indexed) (owner old new : Handle) : (g.rewire owner old new).Indexed :=
  (hi.unregister owner).retarget (fun ⟨_, he, hh⟩ => (Registry.mem_remove.1 he).2 hh) old new

end Indexed

theorem holds_rewire {new : Handle} (hh : g.registry.Holds h) (hne : h ≠ owner) :
    (g.rewire owner old new).registry.Holds h := by
  obtain ⟨e, he, rfl⟩ := hh
  unfold rewire
  rw [registry_retarget]
  exact ⟨e, Registry.mem_remove.2 ⟨he, hne⟩, rfl⟩

theorem holds_retire {new : Handle} (hh : g.registry.Holds h) (hne : h ≠ old) :
    (g.retire old new).registry.Holds h := by
  obtain ⟨e, he, rfl⟩ := hh
  rw [registry_retire]
  exact ⟨e, Registry.mem_remove.2 ⟨he, hne⟩, rfl⟩

/-! ## Registering an owner again -/

/-- The key of a node of a uniqued kind is its structure. -/
theorem keyOfNode_eq_ok {key : Key} (hk : g.keyOfNode h = .ok key) :
    (g.node h).kind.isUniqued ∧ (g.node h).key = key := by
  unfold keyOfNode at hk
  simp only at hk
  split at hk
  · cases hk
  · next hu =>
    split at hk
    · cases hk
    · cases hk
      exact ⟨by simpa using hu, rfl⟩

/-- Every live type of a uniqued kind has a key. -/
theorem WellFormed.keyOfNode_eq (hg : g.WellFormed) (hl : g.Live h)
    (hu : (g.node h).kind.isUniqued) : g.keyOfNode h = .ok (g.node h).key := by
  unfold keyOfNode
  simp only
  rw [if_neg (by simp [hu]), if_neg (Nat.not_lt.2 (hg.takes hl).minParts_le)]

theorem registerProvisional_eq_ok {key : Key} (hr : g.registerProvisional h key = .ok g') :
    g' = { g with registry := g.registry.insert h key .provisional } ∧
      g.registry.lookup key = none ∧ ¬ g.registry.Holds h := by
  unfold registerProvisional at hr
  split at hr
  · cases hr
  · next hl =>
    split at hr
    · cases hr
    · next he =>
      cases hr
      exact ⟨rfl, by simpa using hl, Registry.entry?_eq_none_iff.1 (by simpa using he)⟩

/-- An abstract type registers under its structure. -/
theorem Indexed.registerProvisional (hi : g.Indexed) (hl : g.Live h) (ha : (g.node h).isAbstract)
    {key : Key} (hk : g.keyOfNode h = .ok key) (hr : g.registerProvisional h key = .ok g') :
    g'.Indexed := by
  obtain ⟨hu, rfl⟩ := keyOfNode_eq_ok hk
  obtain ⟨rfl, hlookup, hholds⟩ := registerProvisional_eq_ok hr
  refine ⟨hi.injective.insert hholds hlookup _, fun e he => ?_⟩
  rcases Registry.mem_insert.1 he with he | rfl
  · exact (hi.describes e he).of_node rfl
  · exact ⟨hl, hu, rfl, (if_pos ha).symm⟩

theorem holds_registerProvisional {key : Key} (hr : g.registerProvisional h key = .ok g') :
    g'.registry.Holds k ↔ g.registry.Holds k ∨ k = h := by
  obtain ⟨rfl, -, -⟩ := registerProvisional_eq_ok hr
  constructor
  · rintro ⟨e, he, rfl⟩
    rcases Registry.mem_insert.1 he with he | rfl
    · exact .inl ⟨e, he, rfl⟩
    · exact .inr rfl
  · rintro (⟨e, he, rfl⟩ | rfl)
    · exact ⟨e, Registry.mem_insert.2 (.inl he), rfl⟩
    · exact ⟨_, Registry.mem_insert.2 (.inr rfl), rfl⟩

/-! ## Promotion -/

theorem registry_concretize (hi : g.registry.Injective) (h : Handle) :
    (g.concretize h).registry = g.registry.finalize [h] := by
  unfold concretize
  simp only [registry_update, hi.promote h]

theorem registry_concretizeAll (hi : g.registry.Injective) (group : List Handle) :
    (g.concretizeAll group).registry = g.registry.finalize group := by
  unfold concretizeAll
  induction group generalizing g with
  | nil =>
    unfold Registry.finalize
    rw [show Registry.finalIn [] = id from funext Registry.finalIn_nil, List.map_id]
    rfl
  | cons h group ih =>
    have hreg := registry_concretize hi h
    rw [List.foldl_cons, ih (by rw [hreg]; exact hi.finalize [h]), hreg]
    unfold Registry.finalize
    rw [List.map_map]
    exact congrArg Registry.mk
      (List.map_congr_left fun e _ => (Registry.finalIn_cons h group e).symm)

theorem Indexed.concretizeAll (hi : g.Indexed) (group : List Handle) :
    (g.concretizeAll group).Indexed := by
  have hreg := registry_concretizeAll hi.injective group
  constructor
  · rw [hreg]
    exact hi.injective.finalize group
  · intro e' he'
    rw [hreg] at he'
    obtain ⟨e, he, rfl⟩ := List.mem_map.1 he'
    obtain ⟨hl, hu, hk, ht⟩ := hi.describes e he
    have hn := g.node_concretizeAll e.handle group
    by_cases hm : e.handle ∈ group
    · rw [if_pos hm] at hn
      refine ⟨?_, ?_, ?_, ?_⟩ <;> rw [Registry.handle_finalIn]
      · unfold Live
        rw [hn]
        exact hl
      · rw [hn]
        exact hu
      · rw [hn, Registry.key_finalIn]
        exact hk
      · rw [hn]
        unfold Registry.finalIn
        rw [if_pos hm]
        rfl
    · rw [if_neg hm] at hn
      have hfinal : Registry.finalIn group e = e := if_neg hm
      rw [hfinal]
      exact (hi.describes e he).of_node (by rw [hn])

theorem holds_concretizeAll (hi : g.registry.Injective) {group : List Handle} :
    (g.concretizeAll group).registry.Holds h ↔ g.registry.Holds h := by
  rw [registry_concretizeAll hi group, Registry.holds_finalize]

end TypeGraph.Graph
