import TypeGraph.Proofs.Coherence
import TypeGraph.Proofs.Requests

/-!
# Growth between refinements

Actions other than refinements leave all types as they were, their observers aside: a factory finds
the registered instance of its key, or appends one node. So between two refinements handles resolve
alike, and each key has one type.

`Grows.extends`: what a graph grows to extends it. `WellFormed.appends_intern`: what a factory that
finds no instance changes.
-/

namespace TypeGraph.Graph

/-- The graphs that actions other than refinements lead to from a given one. -/
inductive Grows (g : Graph) : Graph → Prop where
  | refl : Grows g g
  | perform {g' : Graph} {a : Action} {p : Performed} (hg : Grows g g')
      (ha : ∀ h ∈ a.handles, h.index < g'.size) (hr : ∀ old new, a ≠ .refine old new)
      (hp : g'.perform a = .ok p) : Grows g p.graph

/-- All types of a graph are in another one as they were, their observers aside. -/
structure Extends (g g' : Graph) : Prop where
  size_le : g.size ≤ g'.size
  untouched : ∀ {t}, t.index < g.size → g.Untouched g' t

/-- A type was appended that has the parts as its components. Nothing else changed but the counts of
its abstract components. -/
structure Appends (g g' : Graph) (parts : List Handle) : Prop where
  size_eq : g'.size = g.size + 1
  slots_eq : (g'.node g.next).slots = parts
  /-- An abstract component counts the new type once for each of its slots. -/
  node_eq : ∀ {k}, k ≠ g.next → g'.node k =
    if (g.node k).isAbstract then
      { g.node k with owners := List.replicate (parts.count k) g.next ++ (g.node k).owners }
    else g.node k
  entries_eq : g'.registry.entries = g.registry.entries ++ [g'.entryOf g.next]
  subscriptions_eq : g'.subscriptions = g.subscriptions

variable {g g' g'' : Graph} {a : Action} {p : Performed} {key : Key} {h k t : Handle}

/-! ## Extensions -/

theorem Extends.refl (g : Graph) : g.Extends g := ⟨Nat.le_refl _, fun _ => .refl g _⟩

theorem Extends.trans (h : g.Extends g') (h' : g'.Extends g'') : g.Extends g'' :=
  ⟨h.size_le.trans h'.size_le, fun ht =>
    (h.untouched ht).trans (h'.untouched (ht.trans_le h.size_le))⟩

theorem Extends.lt (hx : g.Extends g') (ht : t.index < g.size) : t.index < g'.size :=
  ht.trans_le hx.size_le

/-- Past the arena no type was replaced. -/
theorem lt_of_forwards (hf : g.Forwards h k) : h.index < g.size := by
  by_contra hb
  unfold Forwards at hf
  rw [node_of_size_le (Nat.le_of_not_lt hb)] at hf
  cases hf

/-- An extension keeps all forward links. -/
theorem Extends.coarsens (hx : g.Extends g') (hwf' : g'.WellFormed) : g.Coarsens g' :=
  coarsens_of_forwards hwf'.forwardsEnd fun hf =>
    forwards_congr (Node.forward_of_bare (hx.untouched (lt_of_forwards hf)).bare_eq) hf

/-- In an extension handles resolve as before. -/
theorem Extends.resolve_eq (hx : g.Extends g') (hwf : g.WellFormed) (hwf' : g'.WellFormed)
    (ht : t.index < g.size) : g'.resolve t = g.resolve t := by
  have hlive : g'.Live (g.resolve t) :=
    (hx.untouched (hwf.resolve_lt ht)).live_iff.2 (hwf.live_resolve t)
  rw [← hlive.resolve_eq]
  exact (hx.coarsens hwf').resolve_eq (hwf.forwardsEnd.resolve_resolve t).symm

theorem Extends.kind_eq (hx : g.Extends g') (hwf : g.WellFormed) (hwf' : g'.WellFormed)
    (ht : t.index < g.size) : g'.kind t = g.kind t := by
  have hb := (hx.untouched (hwf.resolve_lt ht)).bare_eq
  unfold kind live
  rw [hx.resolve_eq hwf hwf' ht, Node.kind, Node.shape_of_bare hb]
  rfl

/-! ## Interning -/

/-- The type that is registered under a key is the one of that structure. -/
theorem Consistent.lookup_eq_some_iff (hc : g.Consistent []) : g.registry.lookup key = some h ↔
    g.Live h ∧ (g.node h).kind.isUniqued ∧ (g.node h).key = key := by
  constructor
  · intro hl
    obtain ⟨⟨e, he, rfl⟩, hk⟩ := hc.indexed.of_lookup hl
    have hd := hc.indexed.describes e he
    exact ⟨hd.live, hd.isUniqued, hk⟩
  · rintro ⟨hl, hu, rfl⟩
    exact hc.indexed.lookup_key (hc.holds hl hu)

theorem node_acquire (g : Graph) (owner target k : Handle) :
    (g.acquire owner target).node k =
      if target = k ∧ (g.node k).isObservable then
        { g.node k with owners := owner :: (g.node k).owners }
      else g.node k := by
  unfold acquire
  rw [node_update]
  by_cases hb : k.index < g.size
  · by_cases hk : target = k <;> by_cases ho : (g.node k).isObservable <;> simp [hb, hk, ho]
  · rw [if_neg fun h => hb h.2, node_of_size_le (Nat.le_of_not_lt hb)]
    exact (if_neg fun h => absurd h.2 (by decide)).symm

/-- Counting an owner with the slots of a list, node by node. -/
theorem node_foldl_acquire (owner k : Handle) (l : List Handle) :
    (l.foldl (fun g p => g.acquire owner p) g).node k =
      if (g.node k).isObservable then
        { g.node k with owners := List.replicate (l.count k) owner ++ (g.node k).owners }
      else g.node k := by
  induction l generalizing g with
  | nil => split <;> rfl
  | cons p l ih =>
    have hone := g.node_acquire owner p k
    rw [List.foldl_cons, ih]
    by_cases hp : p = k ∧ (g.node k).isObservable
    · obtain ⟨rfl, ho⟩ := hp
      rw [if_pos ⟨rfl, ho⟩] at hone
      have ho' : ((g.acquire owner p).node p).isObservable := by
        rw [hone]
        exact ho
      rw [if_pos ho', if_pos ho, hone, List.count_cons_self, List.replicate_succ',
        List.append_assoc]
      rfl
    · rw [if_neg hp] at hone
      rw [hone]
      by_cases ho : (g.node k).isObservable
      · rw [List.count_cons_of_ne fun h => hp ⟨h, ho⟩]
      · rw [if_neg ho, if_neg ho]

/-- A factory that finds no instance appends one node. -/
theorem WellFormed.appends_intern (hwf : g.WellFormed) (hk : g.Internable key)
    (hl : g.registry.lookup key = none) : g.Appends (g.intern key).2 key.parts := by
  rw [intern_of_lookup_none hk hl]
  constructor
  · exact size_grow key
  · show ((g.grow key).node g.next).slots = _
    rw [slots_grow, if_pos rfl]
  · intro k hne
    show (Graph.grow g key).node k = _
    have hobs : (g.node k).isObservable = (g.node k).isAbstract := by
      unfold Node.isObservable
      cases ha : (g.node k).isAbstract with
      | false => rfl
      | true => rw [isRetired_eq_false_iff.2 (hwf.live_of_isAbstract ha)]; rfl
    unfold Graph.grow
    rw [node_foldl_acquire, node_push, if_neg hne, hobs]
  · show _ = _ ++ [(g.grow key).entryOf g.next]
    unfold entryOf
    rw [key_grow_next, isAbstract_grow, if_pos rfl]
    rfl
  · exact subscriptions_grow key

theorem Appends.extends {parts : List Handle} (ha : g.Appends g' parts) : g.Extends g' where
  size_le := by rw [ha.size_eq]; exact Nat.le_succ _
  untouched := by
    intro t ht
    have hne := ne_next_of_lt ht
    constructor
    · rw [ha.node_eq hne]
      split <;> rfl
    · have hother : ¬ (g'.entryOf g.next).handle = t := hne.symm
      unfold Registry.entry?
      rw [ha.entries_eq, List.find?_append, List.find?_singleton,
        if_neg (by simpa using hother), Option.or_none]

/-- What a factory makes, or finds: a live type of the key. -/
theorem Consistent.intern_spec (hc : g.Consistent []) (hk : g.Internable key) :
    (g.intern key).2.Live (g.intern key).1 ∧ (g.intern key).1.index < (g.intern key).2.size ∧
      ((g.intern key).2.node (g.intern key).1).key = key := by
  cases hl : g.registry.lookup key with
  | some h =>
    obtain ⟨hlive, hu, hkey⟩ := hc.lookup_eq_some_iff.1 hl
    rw [intern_of_lookup_some hl]
    exact ⟨hlive, WellFormed.lt_of_isUniqued hu, hkey⟩
  | none =>
    rw [intern_of_lookup_none hk hl]
    refine ⟨live_grow.2 ?_, ?_, key_grow_next⟩
    · unfold Live
      rw [node_next]
      rfl
    · show g.size < (g.grow key).size
      rw [size_grow]
      exact Nat.lt_succ_self _

theorem WellFormed.extends_intern (hwf : g.WellFormed) (hk : g.Internable key) :
    g.Extends (g.intern key).2 := by
  cases hl : g.registry.lookup key with
  | some h =>
    rw [intern_of_lookup_some hl]
    exact .refl g
  | none => exact (hwf.appends_intern hk hl).extends

theorem extends_placeholder (g : Graph) : g.Extends g.placeholder.2 where
  size_le := by
    rw [placeholder_eq, size_push]
    exact Nat.le_succ _
  untouched := by
    intro t ht
    refine ⟨?_, rfl⟩
    rw [placeholder_eq, node_push, if_neg (ne_next_of_lt ht)]

/-! ## Actions other than refinements -/

/-- Listeners that come or go leave all types alone. -/
theorem extends_of_bare (hs : g'.size = g.size) (hr : g'.registry = g.registry)
    (hb : ∀ k, (g'.node k).bare = (g.node k).bare) : g.Extends g' :=
  ⟨hs.ge, fun {t} _ => ⟨hb t, by rw [hr]⟩⟩

theorem extends_subscribe {ty : Handle} {id : ListenerId} (hs : g.subscribe ty = some (id, g')) :
    g.Extends g' := by
  have hb := bare_subscribe hs
  unfold subscribe at hs
  simp only at hs
  split at hs
  · cases hs
    exact extends_of_bare (size_update _ _ _) rfl hb
  · cases hs

theorem extends_unsubscribe {id : ListenerId} (hu : g.unsubscribe id = some g') :
    g.Extends g' := by
  have hb := bare_unsubscribe hu
  unfold unsubscribe at hu
  obtain ⟨ty, _, rfl⟩ := Option.map_eq_some_iff.1 hu
  exact extends_of_bare (size_update _ _ _) rfl hb

theorem Performs.extends (hp : g.Performs a p) (hwf : g.WellFormed)
    (ha : ∀ h ∈ a.handles, h.index < g.size) (hr : ∀ old new, a ≠ .refine old new) :
    g.Extends p.graph := by
  cases hp with
  | make hk => exact hwf.extends_intern (internable_of_requested hwf ha hk)
  | placeholder => exact extends_placeholder g
  | refine => exact absurd rfl (hr _ _)
  | subscribe hs => exact extends_subscribe hs
  | unsubscribe hu => exact extends_unsubscribe hu
  | decline | ignore => exact .refl g

theorem Grows.leads (hg : Grows g g') : Leads g g' := by
  induction hg with
  | refl => exact .refl
  | perform _ ha _ hp ih => exact ih.perform ha hp

theorem Grows.trans (h : Grows g g') (h' : Grows g' g'') : Grows g g'' := by
  induction h' with
  | refl => exact h
  | perform _ ha hr hp ih => exact ih.perform ha hr hp

/-- **Growth.** What a reachable graph grows to extends it. -/
theorem Grows.extends (hx : Grows g g') (hg : Reachable g) : g.Extends g' := by
  induction hx with
  | refl => exact .refl g
  | perform hx ha hr hp ih =>
    have hwf := (hx.leads.reachable hg).consistent.wellFormed
    exact ih.trans ((performs_of_perform hp).extends hwf ha hr)

/-- A script without refinements only lets the graph grow. -/
theorem grows_of_play {script : List Action} (hs : ∀ old new, .refine old new ∉ script)
    (h : g.play script = some g') : Grows g g' := by
  induction script generalizing g with
  | nil =>
    cases h
    exact .refl
  | cons a script ih =>
    unfold Graph.play at h
    split at h
    · next ha =>
      split at h
      · next p hp =>
        have hr : ∀ old new, a ≠ .refine old new := by
          rintro old new rfl
          exact hs old new List.mem_cons_self
        refine (Grows.refl.perform (by simpa using ha) hr hp).trans (ih (fun old new hm => ?_) h)
        exact hs old new (List.mem_cons_of_mem _ hm)
      · cases h
    · cases h

/-! ## Factory calls -/

/-- A factory call that asks for the key of a live type gives that type, and changes nothing. -/
theorem Consistent.perform_eq_self (hc : g.Consistent []) (hl : g.Live h)
    (hk : g.requested a = some (g.node h).key) : g.perform a = .ok ⟨g, .made h, []⟩ := by
  have hu : (g.node h).kind.isUniqued := (parts_of_requested hk).2.1.isUniqued
  rw [perform_of_requested hk, intern_of_lookup_some (hc.lookup_eq_some_iff.2 ⟨hl, hu, rfl⟩)]
  rfl

/-- What a factory call makes. -/
theorem Reachable.perform_factory (hg : Reachable g) (ha : ∀ h ∈ a.handles, h.index < g.size)
    (hk : g.requested a = some key) : ∃ h g', g.perform a = .ok ⟨g', .made h, []⟩ ∧
      Reachable g' ∧ g.Extends g' ∧ g'.Live h ∧ h.index < g'.size ∧ (g'.node h).key = key := by
  have hwf := hg.consistent.wellFormed
  have hint := internable_of_requested hwf ha hk
  have hp := perform_of_requested hk
  exact ⟨_, _, hp, hg.perform ha hp, hwf.extends_intern hint, hg.consistent.intern_spec hint⟩

end TypeGraph.Graph
