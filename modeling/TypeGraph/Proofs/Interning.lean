import TypeGraph.Graph.Factory
import TypeGraph.Proofs.Consistency

/-!
# Factories keep a graph consistent

A factory gives the registered instance of a key, or adds one node at the end of the arena, counts
it with its abstract components and registers it. A placeholder is one node more and nothing else.
-/

namespace TypeGraph

namespace Flags

theorem isAbstract_iff (a : Flags) : a.isAbstract ↔ a.bits.toNat % 2 = 1 := by
  unfold isAbstract contains abstract
  rw [beq_iff_eq, ← UInt8.toNat_inj, UInt8.toNat_and]
  exact (Nat.and_one_is_mod a.bits.toNat) ▸ Iff.rfl

theorem isAbstract_union_inter (a c : Flags) :
    (a.union (c.inter abstract)).isAbstract = (a.isAbstract || c.isAbstract) := by
  rw [Bool.eq_iff_iff, Bool.or_eq_true, isAbstract_iff, isAbstract_iff, isAbstract_iff]
  unfold union inter abstract
  simp only [UInt8.toNat_or, UInt8.toNat_and]
  rw [Nat.or_mod_two_eq_one, show (1 : UInt8).toNat = 1 from rfl, Nat.and_one_is_mod, Nat.mod_mod]

/-- Abstractness passes on from any component. -/
theorem isAbstract_propagate (fs : List Flags) : (propagate fs).isAbstract = fs.any isAbstract := by
  have hfold : ∀ acc : Flags,
      (fs.foldl (fun acc c => acc.union (c.inter abstract)) acc).isAbstract =
        (acc.isAbstract || fs.any isAbstract) := by
    induction fs with
    | nil => simp
    | cons f fs ih =>
      intro acc
      rw [List.foldl_cons, ih, isAbstract_union_inter, List.any_cons, Bool.or_assoc]
  exact (hfold none).trans (Bool.false_or _)

end Flags

/-- The flag of a node shows whether it is abstract. -/
theorem Node.isAbstract_flags (n : Node) : n.flags.isAbstract = n.isAbstract := by
  unfold flags
  cases n.isAbstract <;> cases n.isPlaceholder <;> cases n.isRetired <;> rfl

/-- The flag of a node shows whether it is retired. -/
theorem Node.isRetired_flags (n : Node) : n.flags.isRetired = n.isRetired := by
  unfold flags
  cases n.isAbstract <;> cases n.isPlaceholder <;> cases n.isRetired <;> rfl

namespace Graph

/-- The graph with one node more. -/
def push (g : Graph) (n : Node) : Graph := { g with nodes := g.nodes.push n }

/-- The handle that the next node will have. -/
def next (g : Graph) : Handle := ⟨g.size⟩

variable {g : Graph} {n : Node} {h k : Handle}

@[simp] theorem size_push : (g.push n).size = g.size + 1 := Array.size_push _

theorem node_push : (g.push n).node h = if h = g.next then n else g.node h := by
  unfold push node next
  rw [Array.getElem?_push]
  by_cases hh : h.index = g.nodes.size
  · have : h = ⟨g.size⟩ := by cases h; cases hh; rfl
    simp [this, size]
  · have : h ≠ ⟨g.size⟩ := by rintro rfl; exact hh rfl
    simp [hh, this]

theorem node_next : g.node g.next = default := node_of_size_le (Nat.le_refl _)

theorem ne_next_of_lt (hh : h.index < g.size) : h ≠ g.next := by
  rintro rfl
  exact Nat.lt_irrefl _ hh

/-- What is asked of a node that comes to the arena. -/
structure Fits (g : Graph) (n : Node) : Prop where
  forward_eq : n.forward = none
  takes : n.shape.Takes n.slots.length
  slots : ∀ s ∈ n.slots, s.index < g.size ∧ g.Live s
  isAbstract_of_placeholder : n.isPlaceholder → n.isAbstract
  concrete : n.isAbstract = false → ∀ s ∈ n.slots, (g.node s).isAbstract = false

theorem forward_push (hn : n.forward = none) (h : Handle) :
    ((g.push n).node h).forward = (g.node h).forward := by
  rw [node_push]
  split
  · next hh =>
    rw [hh, node_next]
    exact hn
  · rfl

theorem live_push (hn : n.forward = none) : (g.push n).Live h ↔ g.Live h := by
  unfold Live
  rw [forward_push hn]

theorem WellFormed.push (hg : g.WellFormed) (hn : g.Fits n) : (g.push n).WellFormed := by
  have hlive : ∀ {h}, (g.push n).Live h ↔ g.Live h := live_push hn.forward_eq
  have hfwd := forward_push (g := g) hn.forward_eq
  constructor
  · intro h s hs
    rw [node_push] at hs
    rw [size_push]
    split at hs
    · exact Nat.lt_succ_of_lt (hn.slots s hs).1
    · exact Nat.lt_succ_of_lt (hg.slots_lt hs)
  · intro h next hf
    rw [hfwd] at hf
    rw [size_push]
    exact Nat.lt_succ_of_lt (hg.forward_lt hf)
  · intro h
    have hcount : (g.push n).liveCount = g.liveCount + 1 := by
      unfold liveCount Graph.push
      rw [Array.countP_push]
      simp [Node.isRetired, hn.forward_eq]
    rw [size_push, hcount, Nat.add_sub_add_right, follow_congr hfwd, hfwd]
    exact hg.forwardsEnd h
  · intro h hl
    have hl' : ¬ g.Live h := fun h' => hl (hlive.2 h')
    rw [node_push, if_neg, hg.slots_of_retired hl']
    rintro rfl
    exact hl' (by unfold Live; rw [node_next]; rfl)
  · intro h hl
    have hl' : ¬ g.Live h := fun h' => hl (hlive.2 h')
    rw [node_push, if_neg, hg.not_isAbstract_of_retired hl']
    rintro rfl
    exact hl' (by unfold Live; rw [node_next]; rfl)
  · intro h hl
    rw [node_push]
    split
    · exact hn.takes
    · exact hg.takes (hlive.1 hl)
  · intro h hl
    rw [node_push]
    split
    · exact hn.isAbstract_of_placeholder
    · exact hg.isAbstract_of_placeholder (hlive.1 hl)
  · intro h s ha hs
    rw [hlive]
    rw [node_push] at ha hs
    split at hs
    · exact (hn.slots s hs).2
    · next hh =>
      rw [if_neg hh] at ha
      exact hg.live_of_concrete ha hs
  · intro h s ha hs
    rw [node_push] at ha hs
    split at hs
    · next hh =>
      rw [if_pos hh] at ha
      rw [node_push, if_neg (ne_next_of_lt (hn.slots s hs).1)]
      exact hn.concrete ha s hs
    · next hh =>
      rw [if_neg hh] at ha
      rw [node_push, if_neg (ne_next_of_lt (hg.slots_lt hs))]
      exact hg.concrete_of_concrete ha hs

/-! ## A new type among its components -/

/-- What is asked of a key: a kind with one instance for each structure, the slots that its shape
takes, and live components of the arena. -/
structure Internable (g : Graph) (key : Key) : Prop where
  isUniqued : key.kind.isUniqued
  takes : key.shape.Takes key.parts.length
  parts : ∀ p ∈ key.parts, p.index < g.size ∧ g.Live p

/-- The node that a key stands for. -/
def nodeOfKey (g : Graph) (key : Key) : Node :=
  .fresh key.shape key.parts (key.parts.any fun p => (g.node p).isAbstract)

/-- The graph with the node of a key, counted with its components. -/
def grow (g : Graph) (key : Key) : Graph :=
  key.parts.foldl (fun g' p => g'.acquire g.next p) (g.push (g.nodeOfKey key))

theorem intern_of_lookup_some {key : Key} (hl : g.registry.lookup key = some h) :
    g.intern key = (h, g) := by
  unfold intern
  rw [hl]

/-- A key that is not registered gets a node at the end of the arena. -/
theorem intern_of_lookup_none {key : Key} (hk : g.Internable key)
    (hl : g.registry.lookup key = none) :
    g.intern key = (g.next, { g.grow key with
      registry := g.registry.insert g.next key
        (if (g.nodeOfKey key).isAbstract then .provisional else .canonical) }) := by
  have habs :
      (Flags.propagate (key.parts.map g.flags)).isAbstract = (g.nodeOfKey key).isAbstract := by
    rw [Flags.isAbstract_propagate, List.any_map]
    unfold nodeOfKey Node.fresh
    rw [Bool.eq_iff_iff, List.any_eq_true, List.any_eq_true]
    refine exists_congr fun p => and_congr_right fun hp => ?_
    rw [Function.comp_apply, flags, Node.isAbstract_flags, live, (hk.parts p hp).2.resolve_eq]
  have hreg : (g.grow key).registry = g.registry := by
    unfold grow
    exact foldl_proj (f := fun g' p => g'.acquire g.next p) (p := registry) (fun _ _ => rfl) _ _
  unfold intern
  rw [hl]
  simp only [habs]
  unfold grow at hreg ⊢
  exact congrArg (fun r : Registry => (g.next, Graph.mk _ (r.insert g.next key _) _)) hreg

theorem fits_nodeOfKey {key : Key} (hk : g.Internable key) : g.Fits (g.nodeOfKey key) := by
  refine ⟨rfl, hk.takes, hk.parts, fun hp => ?_, fun ha p hp => ?_⟩
  · have hu := hk.isUniqued
    rw [Node.isPlaceholder, decide_eq_true_eq] at hp
    rw [show key.kind = Kind.placeholder from hp] at hu
    cases hu
  · have hall := List.any_eq_false.1 ha p hp
    simpa using hall

theorem size_grow (key : Key) : (g.grow key).size = g.size + 1 := by
  unfold grow
  rw [foldl_proj (f := fun g' p => g'.acquire g.next p) (p := size) fun _ _ => size_acquire _ _ _]
  exact size_push

theorem bare_grow (key : Key) (h : Handle) :
    ((g.grow key).node h).bare = if h = g.next then g.nodeOfKey key else (g.node h).bare := by
  unfold grow
  rw [node_foldl_proj (f := fun g' p => g'.acquire g.next p) (p := Node.bare)
    fun _ _ => bare_acquire _ _ _ _]
  rw [node_push]
  split <;> rfl

theorem count_owners_foldl_acquire (owner : Handle) (a : Handle) (l : List Handle) :
    ((l.foldl (fun g p => g.acquire owner p) g).node h).owners.count a =
      (g.node h).owners.count a +
        if owner = a ∧ (g.node h).isObservable then l.count h else 0 := by
  induction l generalizing g with
  | nil => simp
  | cons p l ih =>
    have hobs : ((g.acquire owner p).node h).isObservable = (g.node h).isObservable := by
      unfold Node.isObservable Node.isRetired
      simp
    rw [List.foldl_cons, ih, hobs, count_owners_acquire, List.count_cons]
    by_cases hp : p = h
    · subst hp
      by_cases ho : owner = a ∧ (g.node p).isObservable
      · rw [if_pos ⟨rfl, ho⟩, if_pos ho, if_pos ho, if_pos (beq_self_eq_true p)]
        omega
      · rw [if_neg fun hc => ho hc.2, if_neg ho, if_neg ho]
    · simp [hp]

section Grow

variable {key : Key}

theorem bare_grow_of_ne (hne : h ≠ g.next) : ((g.grow key).node h).bare = (g.node h).bare :=
  (bare_grow key h).trans (if_neg hne)

theorem bare_grow_next : ((g.grow key).node g.next).bare = (g.nodeOfKey key).bare :=
  (bare_grow key g.next).trans (if_pos rfl)

/-- The new node has the structure of its key. -/
theorem key_grow_next : ((g.grow key).node g.next).key = key := Node.key_of_bare bare_grow_next

theorem forward_grow : ((g.grow key).node h).forward = (g.node h).forward := by
  by_cases hh : h = g.next
  · subst hh
    rw [Node.forward_of_bare bare_grow_next, node_next]
    rfl
  · exact Node.forward_of_bare (bare_grow_of_ne hh)

theorem live_grow : (g.grow key).Live h ↔ g.Live h := live_congr forward_grow

theorem slots_grow :
    ((g.grow key).node h).slots = if h = g.next then key.parts else (g.node h).slots := by
  split
  · next hh =>
    rw [hh]
    exact Node.slots_of_bare bare_grow_next
  · next hh => exact Node.slots_of_bare (bare_grow_of_ne hh)

theorem isAbstract_grow : ((g.grow key).node h).isAbstract =
    if h = g.next then (g.nodeOfKey key).isAbstract else (g.node h).isAbstract := by
  split
  · next hh =>
    rw [hh]
    exact Node.isAbstract_of_bare bare_grow_next
  · next hh => exact Node.isAbstract_of_bare (bare_grow_of_ne hh)

theorem WellFormed.grow (hg : g.WellFormed) (hk : g.Internable key) : (g.grow key).WellFormed := by
  refine (hg.push (fits_nodeOfKey hk)).of_bare (by rw [size_grow, size_push]) fun h => ?_
  rw [bare_grow, node_push]
  split <;> rfl

/-- The new type is counted once for each of its slots. -/
theorem count_owners_grow (hk : g.Internable key) (o : Handle) :
    ((g.grow key).node h).owners.count o =
      (g.node h).owners.count o +
        if g.next = o ∧ (g.node h).isObservable then key.parts.count h else 0 := by
  have hnext : key.parts.count g.next = 0 :=
    List.count_eq_zero.2 fun hm => ne_next_of_lt (hk.parts _ hm).1 rfl
  unfold Graph.grow
  rw [count_owners_foldl_acquire, node_push]
  split
  · next hh =>
    rw [hh, node_next, hnext, ite_self, ite_self]
    rfl
  · rfl

theorem OwnersCounted.grow (hg : g.WellFormed) (hc : g.OwnersCounted) (hk : g.Internable key) :
    (g.grow key).OwnersCounted := by
  have hnew : ∀ o, (g.node o).slots.count g.next = 0 := fun o =>
    List.count_eq_zero.2 fun hm => ne_next_of_lt (hg.slots_lt hm) rfl
  constructor
  · intro h o hh
    rw [live_grow, isAbstract_grow] at hh
    rw [count_owners_grow hk, slots_grow]
    by_cases hnext : h = g.next
    · rw [hnext, node_next]
      have hparts : key.parts.count g.next = 0 :=
        List.count_eq_zero.2 fun hm => ne_next_of_lt (hk.parts _ hm).1 rfl
      have hobs : (default : Node).isObservable = false := rfl
      rw [if_neg fun h => by simp [hobs] at h]
      by_cases ho : o = g.next
      · rw [if_pos ho, hparts]
        rfl
      · rw [if_neg ho, hnew]
        rfl
    · rw [if_neg hnext] at hh
      rw [hc.count_eq o hh]
      by_cases ho : o = g.next
      · rw [if_pos ho, ho, node_next, show (default : Node).slots.count h = 0 from rfl, Nat.zero_add]
        rcases hh with ha | hl
        · have hobs : (g.node h).isObservable := by
            unfold Node.isObservable
            rw [ha, isRetired_eq_false_iff.2 (hg.live_of_isAbstract ha)]
            rfl
          rw [if_pos ⟨rfl, hobs⟩]
        · have hparts : key.parts.count h = 0 :=
            List.count_eq_zero.2 fun hm => hl (hk.parts _ hm).2
          rw [hparts]
          exact ite_self 0
      · rw [if_neg ho, if_neg fun h => ho h.1.symm, Nat.add_zero]
  · intro h hl ha
    rw [live_grow] at hl
    rw [isAbstract_grow] at ha
    refine eq_nil_of_count fun o => ?_
    rw [count_owners_grow hk]
    split at ha
    · next hnext =>
      rw [hnext, node_next, if_neg fun h => absurd h.2 (by decide)]
      rfl
    · have hobs : (g.node h).isObservable = false := by
        unfold Node.isObservable
        rw [ha]
        rfl
      rw [hc.nil hl ha, if_neg fun h => by simp [hobs] at h]
      rfl

end Grow

/-! ## Factories keep graphs consistent -/

theorem not_holds_next (hi : g.Indexed) : ¬ g.registry.Holds g.next :=
  fun hh => ne_next_of_lt (hi.lt_of_holds hh) rfl

/-- A node comes to the registry with the arena's next handle. -/
theorem Indexed.insert_grow {key : Key} (hi : g.Indexed) (hk : g.Internable key)
    (hl : g.registry.lookup key = none) :
    Graph.Indexed { g.grow key with
      registry := g.registry.insert g.next key
        (if (g.nodeOfKey key).isAbstract then .provisional else .canonical) } := by
  refine ⟨hi.injective.insert (not_holds_next hi) hl _, fun e he => ?_⟩
  rcases Registry.mem_insert.1 he with he | rfl
  · refine (hi.describes e he).of_node (bare_grow_of_ne ?_)
    exact ne_next_of_lt (hi.lt_of_holds ⟨e, he, rfl⟩)
  · constructor
    · exact live_grow.2 (by unfold Live; rw [node_next]; rfl)
    · have hkind : ((g.grow key).node g.next).kind = key.kind := congrArg Key.kind key_grow_next
      exact hkind ▸ hk.isUniqued
    · exact key_grow_next.symm
    · show _ = if ((g.grow key).node g.next).isAbstract then _ else _
      rw [isAbstract_grow, if_pos rfl]

theorem Consistent.intern {key : Key} (hc : g.Consistent []) (hk : g.Internable key) :
    (g.intern key).2.Consistent [] := by
  cases hl : g.registry.lookup key with
  | some h =>
    rw [intern_of_lookup_some hl]
    exact hc
  | none =>
    rw [intern_of_lookup_none hk hl]
    have hwf := hc.wellFormed.grow hk
    have hoc := hc.owners.grow hc.wellFormed hk
    refine ⟨⟨hwf.of_bare rfl fun _ => rfl, hoc.congr (fun _ => rfl) fun _ => rfl,
      hc.indexed.insert_grow hk hl, fun hm => absurd hm List.not_mem_nil, fun {h o} hl' ho => ?_⟩,
      fun {h} hl' hu => ?_⟩
    · -- no slot holds a retired type: the new components are live
      have hr : ¬ g.Live h := fun h' => hl' (live_grow.2 h')
      have hs := hoc.mem_slots ho
      rw [slots_grow] at hs
      split at hs
      · exact absurd (hk.parts h hs).2 hr
      · exact absurd (hc.live_of_mem_slots hs) hr
    · by_cases hnext : h = g.next
      · exact ⟨_, Registry.mem_insert.2 (.inr rfl), hnext.symm⟩
      · have hkind : ((g.grow key).node h).kind = (g.node h).kind :=
          congrArg Shape.kind (Node.shape_of_bare (bare_grow_of_ne hnext))
        obtain ⟨e, he, hh⟩ := hc.holds (live_grow.1 hl') (hkind ▸ hu)
        exact ⟨e, Registry.mem_insert.2 (.inl he), hh⟩

theorem placeholder_eq (g : Graph) : g.placeholder.2 = g.push (.fresh .placeholder [] true) := rfl

theorem fits_placeholder : g.Fits (.fresh .placeholder [] true) :=
  ⟨rfl, rfl, fun _ hs => absurd hs List.not_mem_nil, fun _ => rfl, fun ha => by cases ha⟩

theorem Consistent.placeholder (hc : g.Consistent []) : g.placeholder.2.Consistent [] := by
  have hfwd := forward_push (g := g) (n := .fresh .placeholder [] true) rfl
  have hlive : ∀ {h}, (g.push (.fresh .placeholder [] true)).Live h ↔ g.Live h := live_push rfl
  have hslots : ∀ h, ((g.push (.fresh .placeholder [] true)).node h).slots = (g.node h).slots := by
    intro h
    rw [node_push]
    split
    · next hh =>
      rw [hh, node_next]
      rfl
    · rfl
  have howners : ∀ h,
      ((g.push (.fresh .placeholder [] true)).node h).owners = (g.node h).owners := by
    intro h
    rw [node_push]
    split
    · next hh =>
      rw [hh, node_next]
      rfl
    · rfl
  rw [placeholder_eq]
  refine ⟨⟨hc.wellFormed.push fits_placeholder, ⟨fun {h} o hh => ?_, fun {h} hl ha => ?_⟩,
    ⟨hc.indexed.injective, fun e he => ?_⟩, fun hm => absurd hm List.not_mem_nil,
    fun {h o} hl ho => ?_⟩, fun {h} hl hu => ?_⟩
  · rw [howners, hslots]
    by_cases hnext : h = g.next
    · rw [hnext, node_next]
      exact (List.count_eq_zero.2 fun hm => ne_next_of_lt (hc.wellFormed.slots_lt hm) rfl).symm
    · rw [hlive, node_push, if_neg hnext] at hh
      exact hc.owners.count_eq o hh
  · rw [howners]
    rw [hlive] at hl
    rw [node_push] at ha
    split at ha
    · cases ha
    · exact hc.owners.nil hl ha
  · apply (hc.indexed.describes e he).of_node
    rw [node_push, if_neg (ne_next_of_lt (hc.indexed.lt_of_holds ⟨e, he, rfl⟩))]
  · rw [hlive] at hl
    rw [howners] at ho
    exact hc.pending_of_owner hl ho
  · rw [node_push] at hu
    split at hu
    · cases hu
    · exact hc.holds (hlive.1 hl) hu

/-! ## The built-in types -/

theorem node_scalars (h : Handle) : ∃ p, scalars.node h = .fresh (.primitive p) [] false := by
  unfold node scalars
  simp only [Array.getElem?_map]
  cases #[Primitive.void, .float, .double, .label][h.index]? with
  | none => exact ⟨.void, rfl⟩
  | some p => exact ⟨p, rfl⟩

theorem consistent_scalars : scalars.Consistent [] := by
  have hlive : ∀ h, scalars.Live h := fun h => by
    obtain ⟨p, hp⟩ := node_scalars h
    unfold Live
    rw [hp]
    rfl
  have hslots : ∀ h, (scalars.node h).slots = [] := fun h => by
    obtain ⟨p, hp⟩ := node_scalars h
    rw [hp]
    rfl
  have howners : ∀ h, (scalars.node h).owners = [] := fun h => by
    obtain ⟨p, hp⟩ := node_scalars h
    rw [hp]
    rfl
  have hprim : ∀ h, ∃ p, (scalars.node h).shape = .primitive p := fun h => by
    obtain ⟨p, hp⟩ := node_scalars h
    exact ⟨p, by rw [hp]; rfl⟩
  refine ⟨⟨⟨fun {h s} hs => ?_, fun {h n} hf => ?_, fun h => hlive _, fun hl => absurd (hlive _) hl,
    fun hl => absurd (hlive _) hl, fun {h} _ => ?_, fun {h} _ hp => ?_, fun {h s} _ hs => ?_,
    fun {h s} _ hs => ?_⟩, ⟨fun {h} o _ => ?_, fun {h} _ _ => howners h⟩,
    ⟨Registry.injective_empty, fun e he => absurd he List.not_mem_nil⟩,
    fun hm => absurd hm List.not_mem_nil, fun hl => absurd (hlive _) hl⟩, fun {h} _ hu => ?_⟩
  · rw [hslots] at hs
    cases hs
  · have hl := hlive h
    unfold Live at hl
    rw [hl] at hf
    cases hf
  · obtain ⟨p, hp⟩ := hprim h
    rw [hp, hslots]
    rfl
  · obtain ⟨p, hp'⟩ := hprim h
    rw [Node.isPlaceholder, Node.kind, hp'] at hp
    cases hp
  · rw [hslots] at hs
    cases hs
  · rw [hslots] at hs
    cases hs
  · rw [howners, hslots]
    rfl
  · obtain ⟨p, hp⟩ := hprim h
    rw [Node.kind, hp] at hu
    cases hu

theorem internable_integer (g : Graph) (bits : UInt32) : g.Internable (.integer bits) :=
  ⟨rfl, rfl, fun _ hp => absurd hp List.not_mem_nil⟩

theorem consistent_initial : initial.Consistent [] := by
  have hfold : ∀ (l : List UInt32) (g : Graph), g.Consistent [] →
      (l.foldl (fun g bits => (g.intern (.integer bits)).2) g).Consistent [] := by
    intro l
    induction l with
    | nil => exact fun _ hg => hg
    | cons bits l ih => exact fun g hg => ih _ (hg.intern (g.internable_integer bits))
  exact hfold _ _ consistent_scalars

end Graph

end TypeGraph
