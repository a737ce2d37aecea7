import TypeGraph.Proofs.HashConsing
import TypeGraph.Proofs.Homomorphisms

/-!
# Sizes

The size of a vector is its length times the size of its element, which is asked for in the same
way. Nothing in that recursion bounds its depth or its product. What does is that a vector is
concrete and holds a scalar: no refinement rewrites it, so it holds for ever what its factory let
in, and an integer is less than `2 ^ 23` bits wide.

`Reachable.sized`: in a reachable graph the recursion asks for two types at most, and the product
that it meets fits in a word.
-/

namespace TypeGraph

/-- The product of two words, if it is a word. -/
def Word.product? (a b : UInt64) : Option UInt64 :=
  if a.toNat * b.toNat < 2 ^ 64 then some (a * b) else none

theorem Word.product?_eq_some_iff {a b w : UInt64} :
    product? a b = some w ↔ w.toNat = a.toNat * b.toNat := by
  unfold product?
  split
  · next hlt =>
    rw [Option.some.injEq, ← UInt64.toNat_inj, UInt64.toNat_mul, Nat.mod_eq_of_lt hlt]
    exact eq_comm
  · next hge =>
    refine ⟨fun h => (by cases h), fun h => absurd ?_ hge⟩
    rw [← h]
    exact w.toNat_lt

/-- What vectors can hold: an integer of a valid width, or a float. -/
def Shape.IsElement : Shape → Prop
  | integer bits => 1 ≤ bits.toNat ∧ bits.toNat ≤ 2 ^ 23 - 1
  | primitive .float | primitive .double => True
  | _ => False

theorem Shape.isElement_of_kind {s : Shape} (hk : s.kind.isVectorElement)
    (hv : ∀ {bits}, s = .integer bits → IntegerWidth.isValid bits) : s.IsElement := by
  cases s with
  | integer bits =>
    have h := hv rfl
    unfold IntegerWidth.isValid IntegerWidth.least IntegerWidth.greatest at h
    simp only [Bool.and_eq_true, decide_eq_true_eq, UInt32.le_iff_toNat_le] at h
    exact h
  | primitive p =>
    cases p with
    | float | double => trivial
    | void | label => cases hk
  | function | struct | array | vector | pointer | placeholder => cases hk

theorem Shape.IsElement.scalarBits_le {s : Shape} (hs : s.IsElement) :
    s.scalarBits ≤ 2 ^ 23 - 1 := by
  cases s with
  | integer bits => exact hs.2
  | primitive p =>
    cases p with
    | float | double => decide
    | void | label => cases hs
  | function | struct | array | vector | pointer | placeholder => cases hs

/-- The size of a type that is no vector: the width of an integer, 32 and 64 bits for the floats,
and nought for all others. -/
def Description.scalarBits : Description → Nat
  | integer bits => bits.toNat
  | primitive .float => 32
  | primitive .double => 64
  | primitive .void | primitive .label | function _ _ _ _ | struct _ _ | array _ _ | vector _ _
  | pointer _ | placeholder => 0

theorem Description.scalarBits_key (d : Description) : d.key.shape.scalarBits = d.scalarBits := by
  cases d with
  | primitive p => cases p <;> rfl
  | _ => rfl

theorem Shape.IsElement.ne_vector {s : Shape} (hs : s.IsElement) (len : UInt32) :
    s ≠ .vector len := by
  rintro rfl
  cases hs

namespace Graph

/-- The size of a type in bits, on fuel for `n` types one inside the other with `links` forward
links for each. There is none if a vector holds nothing or a product is no word. -/
def sizeWithin (g : Graph) (links : Nat) : Nat → Handle → Option UInt64
  | 0, _ => none
  | n + 1, h => do
    let x ← g.resolveWithin links h
    match (g.node x).shape with
    | .vector len =>
      let elem ← (g.node x).slots.head?
      let each ← g.sizeWithin links n elem
      Word.product? len.toUInt64 each
    | s => some s.scalarBits.toUInt64

/-- The sizes of all types are defined. -/
structure Sized (g : Graph) : Prop where
  /-- A live vector is concrete and holds one live scalar. -/
  vector : ∀ {h len}, g.Live h → (g.node h).shape = .vector len → (g.node h).isAbstract = false ∧
    ∃ elem, (g.node h).slots = [elem] ∧ g.Live elem ∧ (g.node elem).shape.IsElement
  /-- The recursion asks for a vector and its element, and gives what it is said to give. -/
  ends : ∀ {links n}, g.size ≤ links → 2 ≤ n → ∀ h, ∃ w, g.sizeWithin links n h = some w ∧
    w.toNat = g.sizeInBits h
  /-- A type that is no vector has the size that its description calls for. -/
  scalarBits : ∀ {h d}, g.describe? h = some d → (∀ elem len, d ≠ .vector elem len) →
    g.sizeInBits h = d.scalarBits
  /-- The size of a vector is its width, and that is the exact product. -/
  vectorBits : ∀ {h elem len}, g.describe? h = some (.vector elem len) →
    g.sizeInBits h = g.vectorBits elem len ∧
      g.vectorBits elem len = len.toNat * (g.node elem).shape.scalarBits ∧
      g.vectorBits elem len < 2 ^ 64
  /-- A type that was replaced has the size of the live one. -/
  resolve : ∀ h, g.sizeInBits (g.resolve h) = g.sizeInBits h

variable {g : Graph} {h elem : Handle} {len : UInt32}

/-- What a vector holds. -/
theorem Reachable.isElement_of_vector (hg : Reachable g) (hl : g.Live h)
    (hs : (g.node h).shape = .vector len) : (g.node h).isAbstract = false ∧
    ∃ elem, (g.node h).slots = [elem] ∧ g.Live elem ∧ (g.node elem).shape.IsElement := by
  have hwf := hg.consistent.wellFormed
  have hkind : (g.node h).kind = .vector := congrArg Shape.kind hs
  have hconcrete := (hg.wellMade h).concrete (.inr hkind)
  have htakes := hwf.takes hl
  rw [hs] at htakes
  obtain ⟨elem, hslots⟩ := List.length_eq_one_iff.1 htakes
  have hmem : elem ∈ (g.node h).slots := hslots ▸ List.mem_singleton_self elem
  exact ⟨hconcrete, elem, hslots, hwf.live_of_concrete hconcrete hmem,
    Shape.isElement_of_kind ((hg.wellMade h).isVectorElement hkind elem hmem)
      (hg.wellMade elem).isValid⟩

/-- What a vector comes to, by its description. -/
theorem Reachable.describe_vector (hg : Reachable g)
    (hd : g.describe? h = some (.vector elem len)) : (g.live h).shape = .vector len ∧
    (g.live h).slots = [elem] ∧ g.Live elem ∧ (g.node elem).shape.IsElement := by
  have hkey := Key.describe?_eq_some_iff.1 hd
  have hshape : (g.live h).shape = .vector len := congrArg Key.shape hkey
  have hslots : (g.live h).slots = [elem] := congrArg Key.parts hkey
  obtain ⟨-, e, he, hl, hscalar⟩ := hg.isElement_of_vector
    (hg.consistent.wellFormed.live_resolve h) hshape
  obtain rfl : elem = e := List.singleton_inj.1 (hslots.symm.trans he)
  exact ⟨hshape, hslots, hl, hscalar⟩

/-! ## Sizes of scalars and vectors -/

theorem sizeInBits_of_ne_vector (hs : ∀ len, (g.live h).shape ≠ .vector len) :
    g.sizeInBits h = (g.live h).shape.scalarBits := by
  unfold sizeInBits
  split
  · next len hlen => exact absurd hlen (hs len)
  · rfl

/-- The size of a type that is no vector is read off its description. -/
theorem sizeInBits_of_describe {d : Description} (hd : g.describe? h = some d)
    (hv : ∀ elem len, d ≠ .vector elem len) : g.sizeInBits h = d.scalarBits := by
  have hshape : (g.live h).shape = d.key.shape :=
    congrArg Key.shape (Key.describe?_eq_some_iff.1 hd)
  rw [sizeInBits_of_ne_vector, hshape, d.scalarBits_key]
  intro len hlen
  rw [hshape] at hlen
  cases d with
  | vector elem len => exact hv elem len rfl
  | _ => cases hlen

theorem Live.sizeInBits_eq (hl : g.Live elem) (hs : (g.node elem).shape.IsElement) :
    g.sizeInBits elem = (g.node elem).shape.scalarBits := by
  have hlive : g.live elem = g.node elem := congrArg g.node hl.resolve_eq
  rw [sizeInBits_of_ne_vector, hlive]
  rw [hlive]
  exact hs.ne_vector

theorem sizeInBits_vector (hs : (g.live h).shape = .vector len) (hslots : (g.live h).slots = [elem])
    (hl : g.Live elem) : g.sizeInBits h = len.toNat * (g.node elem).shape.scalarBits := by
  have helem : g.element h = elem := by rw [element, hslots, List.headD_cons]
  unfold sizeInBits
  rw [hs, helem]
  exact congrArg (fun x => len.toNat * (g.node x).shape.scalarBits) hl.resolve_eq

/-- A vector is less than `2 ^ 55` bits wide. -/
theorem mul_scalarBits_lt {s : Shape} (hs : s.IsElement) (len : UInt32) :
    len.toNat * s.scalarBits < 2 ^ 64 := by
  calc len.toNat * s.scalarBits ≤ 2 ^ 32 * (2 ^ 23 - 1) :=
        Nat.mul_le_mul len.toNat_lt.le hs.scalarBits_le
    _ < 2 ^ 64 := by decide

theorem toNat_scalarBits (s : Shape) : s.scalarBits.toUInt64.toNat = s.scalarBits := by
  refine Nat.mod_eq_of_lt ?_
  cases s with
  | integer bits => exact bits.toNat_lt.trans (by decide)
  | primitive p => cases p <;> decide
  | function | struct | array | vector | pointer | placeholder => exact Nat.two_pow_pos 64

/-! ## The recursion -/

variable {links n : Nat}

/-- The size of a type that is no vector is there at once. -/
theorem ForwardsEnd.sizeWithin_of_ne_vector (hg : g.ForwardsEnd) (hlinks : g.size ≤ links)
    (hs : ∀ len, (g.live h).shape ≠ .vector len) :
    g.sizeWithin links (n + 1) h = some (g.live h).shape.scalarBits.toUInt64 := by
  rw [sizeWithin, hg.resolveWithin_eq hlinks, Option.bind_eq_bind, Option.bind_some]
  split
  · next len hlen => exact absurd hlen (hs len)
  · rfl

/-- The size of a vector is there once that of its element is. -/
theorem ForwardsEnd.sizeWithin_vector (hg : g.ForwardsEnd) (hlinks : g.size ≤ links)
    (hs : (g.live h).shape = .vector len) (hslots : (g.live h).slots = [elem]) :
    g.sizeWithin links (n + 1) h =
      (g.sizeWithin links n elem).bind (Word.product? len.toUInt64) := by
  unfold live at hs hslots
  rw [sizeWithin, hg.resolveWithin_eq hlinks, Option.bind_eq_bind, Option.bind_some]
  simp only [hs, hslots, List.head?_cons, Option.bind_eq_bind, Option.bind_some]

theorem Reachable.sizeWithin_eq (hg : Reachable g) (hlinks : g.size ≤ links) (hn : 2 ≤ n)
    (h : Handle) : ∃ w, g.sizeWithin links n h = some w ∧ w.toNat = g.sizeInBits h := by
  have hend := hg.consistent.wellFormed.forwardsEnd
  obtain ⟨n, rfl⟩ : ∃ k, n = k + 2 := ⟨n - 2, by omega⟩
  by_cases hs : ∃ len, (g.live h).shape = .vector len
  · obtain ⟨len, hs⟩ := hs
    obtain ⟨-, elem, hslots, hl, hscalar⟩ := hg.isElement_of_vector
      (hg.consistent.wellFormed.live_resolve h) hs
    have hlive : g.live elem = g.node elem := congrArg g.node hl.resolve_eq
    have helem := hend.sizeWithin_of_ne_vector (n := n) hlinks (h := elem) (by
      rw [hlive]
      exact hscalar.ne_vector)
    rw [hlive] at helem
    have hlt := mul_scalarBits_lt hscalar len
    refine ⟨(len.toNat * (g.node elem).shape.scalarBits).toUInt64, ?_, ?_⟩
    · rw [hend.sizeWithin_vector hlinks hs hslots, helem, Option.bind_some,
        Word.product?_eq_some_iff, toNat_scalarBits]
      exact Nat.mod_eq_of_lt hlt
    · rw [sizeInBits_vector hs hslots hl]
      exact Nat.mod_eq_of_lt hlt
  · have hs : ∀ len, (g.live h).shape ≠ .vector len := fun len heq => hs ⟨len, heq⟩
    refine ⟨_, hend.sizeWithin_of_ne_vector hlinks hs, ?_⟩
    rw [sizeInBits_of_ne_vector hs, toNat_scalarBits]

/-! ## The theorem -/

/-- **Sizes.** In a reachable graph every type has a size, that of a vector is the exact product of
its length and the size of the scalar that it holds, and handles that stand for one type have one
size. -/
theorem Reachable.sized (hg : Reachable g) : g.Sized where
  vector := hg.isElement_of_vector
  ends := hg.sizeWithin_eq
  scalarBits := sizeInBits_of_describe
  vectorBits := by
    intro h elem len hd
    obtain ⟨hs, hslots, hl, hscalar⟩ := hg.describe_vector hd
    have hbits : g.vectorBits elem len = len.toNat * (g.node elem).shape.scalarBits := by
      rw [Graph.vectorBits, hl.sizeInBits_eq hscalar]
    refine ⟨(sizeInBits_vector hs hslots hl).trans hbits.symm, hbits, ?_⟩
    rw [hbits]
    exact mul_scalarBits_lt hscalar len
  resolve := by
    intro h
    have hl := hg.consistent.wellFormed.live_resolve h
    have hlive : g.live (g.resolve h) = g.live h := congrArg g.node hl.resolve_eq
    unfold sizeInBits element
    rw [hlive, hl.resolve_eq]

set_option maxRecDepth 10000 in
/-- A placeholder was refined to a vector of the widest integers, which a structure came to hold.
The stale handle has the size of the vector, a product that no 32-bit word holds. -/
theorem sized_stale : ∃ g, initial.play
    [.integer 8388607, .vector ⟨9⟩ 4294967295, .placeholder, .struct [⟨11⟩, .i8] false,
      .refine ⟨11⟩ ⟨10⟩] = some g ∧ g.Sized ∧
    g.describe? ⟨11⟩ = some (.vector ⟨9⟩ 4294967295) ∧
    g.describe? ⟨12⟩ = some (.struct [⟨10⟩, .i8] false) ∧
    g.sizeInBits ⟨11⟩ = 4294967295 * 8388607 ∧
    (g.sizeWithin g.size 2 ⟨11⟩).map UInt64.toNat = some (4294967295 * 8388607) := by
  have h : ((initial.play
      [.integer 8388607, .vector ⟨9⟩ 4294967295, .placeholder, .struct [⟨11⟩, .i8] false,
        .refine ⟨11⟩ ⟨10⟩]).map fun g =>
      ((g.live ⟨11⟩).key, (g.live ⟨12⟩).key, (g.node ⟨9⟩).shape)) =
      some (⟨.vector 4294967295, [⟨9⟩]⟩, ⟨.struct false, [⟨10⟩, .i8]⟩, .integer 8388607) := by cbv
  obtain ⟨g, hg, heq⟩ := Option.map_eq_some_iff.1 h
  simp only [Prod.mk.injEq] at heq
  obtain ⟨hvector, hstruct, hscalar⟩ := heq
  have hsized := (Reachable.initial.play hg).sized
  have hdescribe : g.describe? ⟨11⟩ = some (.vector ⟨9⟩ 4294967295) :=
    Key.describe?_eq_some_iff.2 hvector
  obtain ⟨hbits, hwidth, -⟩ := hsized.vectorBits hdescribe
  rw [hwidth, hscalar] at hbits
  obtain ⟨w, hw, hnat⟩ := hsized.ends (Nat.le_refl g.size) (Nat.le_refl 2) ⟨11⟩
  refine ⟨g, hg, hsized, hdescribe, Key.describe?_eq_some_iff.2 hstruct, hbits, ?_⟩
  rw [hw, Option.map_some, hnat, hbits]
  rfl

end Graph

end TypeGraph
