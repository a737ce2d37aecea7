import Mathlib.Tactic.ByContra
import TypeGraph.Proofs.Forwarding
import TypeGraph.Graph.Unfolding

/-!
# Well-formed graphs

What holds of the nodes of a graph at any moment of a refinement. Slots and forward links stay in
the arena, and forward links end. A retired type holds nothing and is not abstract. A shape has the
slots that it takes. A placeholder is abstract, and a concrete type holds only live concrete types.

Each change that a refinement is made of keeps a graph well-formed.
-/

namespace TypeGraph

/-- The shape takes that number of slots. -/
def Shape.Takes : Shape → Nat → Prop
  | primitive _, n | integer _, n | placeholder, n => n = 0
  | function _ _, n => 1 ≤ n
  | struct _, _ => True
  | array _, n | vector _, n | pointer, n => n = 1

/-- A shape with components, as many as it takes. -/
inductive Shape.Over {α : Type} : Shape → List α → Prop where
  | primitive (p : Primitive) : Over (.primitive p) []
  | integer (bits : UInt32) : Over (.integer bits) []
  | function (varargs : Bool) (attrs : List Attributes) (ret : α) (params : List α) :
      Over (.function varargs attrs) (ret :: params)
  | struct (packed : Bool) (fields : List α) : Over (.struct packed) fields
  | array (len : UInt64) (elem : α) : Over (.array len) [elem]
  | vector (len : UInt32) (elem : α) : Over (.vector len) [elem]
  | pointer (elem : α) : Over .pointer [elem]
  | placeholder : Over .placeholder []

theorem Shape.Takes.over {α : Type} {s : Shape} {parts : List α} (h : s.Takes parts.length) :
    s.Over parts := by
  cases s with
  | primitive p =>
    obtain rfl := List.length_eq_zero_iff.1 h
    exact .primitive p
  | integer bits =>
    obtain rfl := List.length_eq_zero_iff.1 h
    exact .integer bits
  | placeholder =>
    obtain rfl := List.length_eq_zero_iff.1 h
    exact .placeholder
  | function varargs attrs =>
    obtain ⟨ret, params, rfl⟩ := List.exists_cons_of_length_pos h
    exact .function varargs attrs ret params
  | struct packed => exact .struct packed parts
  | array len =>
    obtain ⟨elem, rfl⟩ := List.length_eq_one_iff.1 h
    exact .array len elem
  | vector len =>
    obtain ⟨elem, rfl⟩ := List.length_eq_one_iff.1 h
    exact .vector len elem
  | pointer =>
    obtain ⟨elem, rfl⟩ := List.length_eq_one_iff.1 h
    exact .pointer elem

theorem Shape.Takes.minParts_le {s : Shape} {n : Nat} (h : s.Takes n) : s.minParts ≤ n := by
  cases s <;> simp_all [Takes, minParts]

namespace Graph

/-- The type was not replaced. -/
def Live (g : Graph) (h : Handle) : Prop := (g.node h).forward = none

/-- What holds of the nodes at any moment of a refinement. -/
structure WellFormed (g : Graph) : Prop where
  slots_lt : ∀ {h s}, s ∈ (g.node h).slots → s.index < g.size
  forward_lt : ∀ {h next}, (g.node h).forward = some next → next.index < g.size
  forwardsEnd : g.ForwardsEnd
  slots_of_retired : ∀ {h}, ¬ g.Live h → (g.node h).slots = []
  not_isAbstract_of_retired : ∀ {h}, ¬ g.Live h → (g.node h).isAbstract = false
  takes : ∀ {h}, g.Live h → (g.node h).shape.Takes (g.node h).slots.length
  isAbstract_of_placeholder : ∀ {h}, g.Live h → (g.node h).isPlaceholder → (g.node h).isAbstract
  live_of_concrete : ∀ {h s}, (g.node h).isAbstract = false → s ∈ (g.node h).slots → g.Live s
  concrete_of_concrete : ∀ {h s}, (g.node h).isAbstract = false → s ∈ (g.node h).slots →
    (g.node s).isAbstract = false

variable {g g' : Graph} {h k s old new owner : Handle}

theorem isRetired_eq_false_iff : (g.node h).isRetired = false ↔ g.Live h := by
  unfold Node.isRetired Live
  cases (g.node h).forward <;> simp

theorem live_congr (hf : (g'.node k).forward = (g.node k).forward) : g'.Live k ↔ g.Live k := by
  unfold Live
  rw [hf]

theorem live_of_bare (hb : (g'.node k).bare = (g.node k).bare) : g'.Live k ↔ g.Live k :=
  live_congr (Node.forward_of_bare hb)

theorem live_retire (new k : Handle) (hb : old.index < g.size) :
    (g.retire old new).Live k ↔ k ≠ old ∧ g.Live k := by
  unfold Live
  rw [forward_retire new k hb]
  by_cases hk : k = old <;> simp [hk]

theorem live_retarget (g : Graph) (owner old new k : Handle) :
    (g.retarget owner old new).Live k ↔ g.Live k := live_congr (forward_retarget ..)

theorem live_concretizeAll (g : Graph) (k : Handle) (group : List Handle) :
    (g.concretizeAll group).Live k ↔ g.Live k := live_congr (forward_concretizeAll ..)

theorem Live.resolve_eq (hl : g.Live h) : g.resolve h = h := resolve_of_forward_none hl

theorem map_node_handles (g : Graph) : g.handles.map g.node = g.nodes.toList := by
  refine List.ext_getElem (by simp [handles, size]) fun i hi hi' => ?_
  simp only [handles, List.map_map, List.getElem_map, List.getElem_range, Function.comp_apply, node]
  rw [Array.getElem?_eq_getElem (by simpa using hi')]
  rfl

/-- The number of live types, counted over the handles of the arena. -/
theorem liveCount_eq_countP (g : Graph) :
    g.liveCount = g.handles.countP fun h => !(g.node h).isRetired := by
  unfold liveCount
  rw [← Array.countP_toList, ← map_node_handles, List.countP_map]
  rfl

theorem liveCount_congr (hs : g'.size = g.size)
    (hf : ∀ k, (g'.node k).forward = (g.node k).forward) : g'.liveCount = g.liveCount := by
  rw [liveCount_eq_countP, liveCount_eq_countP]
  unfold handles
  rw [hs]
  refine List.countP_congr fun k _ => ?_
  unfold Node.isRetired
  rw [hf k]

theorem ForwardsEnd.congr (hg : g.ForwardsEnd) (hs : g'.size = g.size)
    (hf : ∀ k, (g'.node k).forward = (g.node k).forward) : g'.ForwardsEnd := by
  intro h
  rw [hs, liveCount_congr hs hf, follow_congr hf, hf]
  exact hg h

namespace WellFormed

theorem live_of_isAbstract (hg : g.WellFormed) (ha : (g.node h).isAbstract) : g.Live h := by
  by_contra hl
  rw [hg.not_isAbstract_of_retired hl] at ha
  cases ha

theorem live_resolve (hg : g.WellFormed) (h : Handle) : g.Live (g.resolve h) :=
  hg.forwardsEnd.forward_resolve h

theorem resolve_lt (hg : g.WellFormed) (hh : h.index < g.size) : (g.resolve h).index < g.size :=
  follow_lt (fun _ _ hf => hg.forward_lt hf) _ hh

/-- A node that is not a plain scalar is in the arena. -/
theorem lt_of_isAbstract (ha : (g.node h).isAbstract) : h.index < g.size := by
  by_contra hb
  rw [node_of_size_le (Nat.le_of_not_lt hb)] at ha
  cases ha

theorem lt_of_isUniqued (hu : (g.node h).kind.isUniqued) : h.index < g.size := by
  by_contra hb
  rw [node_of_size_le (Nat.le_of_not_lt hb)] at hu
  cases hu

/-- Graphs that differ in observers and the registry only are well-formed together. -/
theorem of_bare (hg : g.WellFormed) (hs : g'.size = g.size)
    (hb : ∀ k, (g'.node k).bare = (g.node k).bare) : g'.WellFormed := by
  have hshape : ∀ k, (g'.node k).shape = (g.node k).shape := fun k =>
    Node.shape_of_bare (hb k)
  have hslots : ∀ k, (g'.node k).slots = (g.node k).slots := fun k =>
    Node.slots_of_bare (hb k)
  have habs : ∀ k, (g'.node k).isAbstract = (g.node k).isAbstract := fun k =>
    Node.isAbstract_of_bare (hb k)
  have hfwd : ∀ k, (g'.node k).forward = (g.node k).forward := fun k =>
    Node.forward_of_bare (hb k)
  have hlive : ∀ k, g'.Live k ↔ g.Live k := fun k => live_of_bare (hb k)
  constructor
  · intro h s
    rw [hslots, hs]
    exact hg.slots_lt
  · intro h next
    rw [hfwd, hs]
    exact hg.forward_lt
  · exact hg.forwardsEnd.congr hs hfwd
  · intro h
    rw [hlive, hslots]
    exact hg.slots_of_retired
  · intro h
    rw [hlive, habs]
    exact hg.not_isAbstract_of_retired
  · intro h
    rw [hlive, hshape, hslots]
    exact hg.takes
  · intro h
    rw [hlive, habs, Node.isPlaceholder, Node.kind, hshape]
    exact hg.isAbstract_of_placeholder
  · intro h s
    rw [habs, hslots, hlive]
    exact hg.live_of_concrete
  · intro h s
    rw [habs, hslots, habs]
    exact hg.concrete_of_concrete

/-- An abstract type can be retired in favour of another live type. -/
theorem retire (hg : g.WellFormed) (hold : (g.node old).isAbstract) (hnew : g.Live new)
    (hlt : new.index < g.size) (hne : new ≠ old) : (g.retire old new).WellFormed := by
  have hb := lt_of_isAbstract hold
  have hlive := hg.live_of_isAbstract hold
  have hslots := fun k => slots_retire new k hb
  have habs := fun k => isAbstract_retire new k hb
  have hrest := fun k => live_retire new k hb
  constructor
  · intro h s hs
    rw [hslots] at hs
    rw [size_retire]
    split at hs
    · cases hs
    · exact hg.slots_lt hs
  · intro h next hf
    rw [forward_retire new h hb] at hf
    rw [size_retire]
    split at hf
    · cases hf
      exact hlt
    · exact hg.forward_lt hf
  · exact hg.forwardsEnd.retire hb hlive hnew hne
  · intro h hl
    rw [hslots]
    split
    · rfl
    · next hk => exact hg.slots_of_retired fun h => hl ((hrest _).2 ⟨hk, h⟩)
  · intro h hl
    rw [habs]
    split
    · rfl
    · next hk => exact hg.not_isAbstract_of_retired fun h => hl ((hrest _).2 ⟨hk, h⟩)
  · intro h hl
    obtain ⟨hk, hl⟩ := (hrest h).1 hl
    rw [shape_retire new h hb, hslots, if_neg hk]
    exact hg.takes hl
  · intro h hl hp
    obtain ⟨hk, hl⟩ := (hrest h).1 hl
    rw [Node.isPlaceholder, Node.kind, shape_retire new h hb] at hp
    rw [habs, if_neg hk]
    exact hg.isAbstract_of_placeholder hl hp
  · intro h s ha hs
    rw [hslots] at hs
    split at hs
    · cases hs
    · next hk =>
      rw [habs, if_neg hk] at ha
      refine (hrest s).2 ⟨?_, hg.live_of_concrete ha hs⟩
      rintro rfl
      rw [hg.concrete_of_concrete ha hs] at hold
      cases hold
  · intro h s ha hs
    rw [hslots] at hs
    split at hs
    · cases hs
    · next hk =>
      rw [habs, if_neg hk] at ha
      rw [habs]
      split
      · rfl
      · exact hg.concrete_of_concrete ha hs

/-- The slots of an abstract type can move. -/
theorem retarget (hg : g.WellFormed) (howner : (g.node owner).isAbstract) (hlt : new.index < g.size)
    (old : Handle) : (g.retarget owner old new).WellFormed := by
  have hslots := fun k => g.slots_retarget owner old new k
  have hlive := fun k => g.live_retarget owner old new k
  have hconcrete : ∀ {k}, (g.node k).isAbstract = false → k ≠ owner := by
    rintro k ha rfl
    rw [ha] at howner
    cases howner
  constructor
  · intro h s hs
    rw [hslots] at hs
    rw [size_retarget]
    split at hs
    · obtain ⟨t, ht, rfl⟩ := List.mem_map.1 hs
      split
      · exact hlt
      · exact hg.slots_lt ht
    · exact hg.slots_lt hs
  · intro h next
    rw [forward_retarget, size_retarget]
    exact hg.forward_lt
  · exact hg.forwardsEnd.congr (size_retarget ..) fun k => forward_retarget ..
  · intro h hl
    rw [hslots, hg.slots_of_retired fun h => hl ((hlive _).2 h)]
    split <;> rfl
  · intro h hl
    rw [isAbstract_retarget]
    exact hg.not_isAbstract_of_retired fun h => hl ((hlive _).2 h)
  · intro h hl
    rw [shape_retarget, hslots]
    have ht := hg.takes ((hlive h).1 hl)
    split
    · rwa [List.length_map]
    · exact ht
  · intro h hl
    rw [Node.isPlaceholder, Node.kind, shape_retarget, isAbstract_retarget]
    exact hg.isAbstract_of_placeholder ((hlive h).1 hl)
  · intro h s ha hs
    rw [isAbstract_retarget] at ha
    rw [hslots, if_neg (hconcrete ha)] at hs
    exact (hlive s).2 (hg.live_of_concrete ha hs)
  · intro h s ha hs
    rw [isAbstract_retarget] at ha ⊢
    rw [hslots, if_neg (hconcrete ha)] at hs
    exact hg.concrete_of_concrete ha hs

/-- A group of types that hold only each other and concrete types can become concrete. -/
theorem concretizeAll (hg : g.WellFormed) {group : List Handle}
    (hplaceholder : ∀ h ∈ group, (g.node h).isPlaceholder = false)
    (hclosed : ∀ h ∈ group, ∀ s ∈ (g.node h).slots,
      g.Live s ∧ ((g.node s).isAbstract → s ∈ group)) :
    (g.concretizeAll group).WellFormed := by
  have hshape := fun k => g.shape_concretizeAll k group
  have hslots := fun k => g.slots_concretizeAll k group
  have hfwd := fun k => g.forward_concretizeAll k group
  have habs := fun k => g.isAbstract_concretizeAll k group
  have hlive := fun k => g.live_concretizeAll k group
  constructor
  · intro h s
    rw [hslots, size_concretizeAll]
    exact hg.slots_lt
  · intro h next
    rw [hfwd, size_concretizeAll]
    exact hg.forward_lt
  · exact hg.forwardsEnd.congr (size_concretizeAll ..) hfwd
  · intro h hl
    rw [hslots]
    exact hg.slots_of_retired fun h => hl ((hlive _).2 h)
  · intro h hl
    rw [habs]
    split
    · rfl
    · exact hg.not_isAbstract_of_retired fun h => hl ((hlive _).2 h)
  · intro h hl
    rw [hshape, hslots]
    exact hg.takes ((hlive h).1 hl)
  · intro h hl hp
    rw [Node.isPlaceholder, Node.kind, hshape] at hp
    rw [habs, if_neg fun hm => ?_]
    · exact hg.isAbstract_of_placeholder ((hlive h).1 hl) hp
    · rw [← Node.kind, ← Node.isPlaceholder, hplaceholder h hm] at hp
      cases hp
  · intro h s ha hs
    rw [habs] at ha
    rw [hslots] at hs
    apply (hlive s).2
    split at ha
    · next hm => exact (hclosed h hm s hs).1
    · exact hg.live_of_concrete ha hs
  · intro h s ha hs
    rw [habs] at ha
    rw [hslots] at hs
    rw [habs]
    split
    · rfl
    · next hn =>
      split at ha
      · next hm => exact Bool.eq_false_iff.2 fun hs' => hn ((hclosed h hm s hs).2 hs')
      · exact hg.concrete_of_concrete ha hs

end WellFormed

end Graph

end TypeGraph
