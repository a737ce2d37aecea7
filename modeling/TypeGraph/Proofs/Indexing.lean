import TypeGraph.Graph.Index
import TypeGraph.Proofs.Histories

/-!
# Indexing

Of a view of a composite type and an operand one can ask whether the operand is a valid index, which
element it selects, and demand that it selects one. All three answers hang on the kind of the type
alone, so a composite view gives those of the single kinds.

A structure gives an element exactly for the valid indices. A sequential type gives its only element
for every operand, also for one that is no valid index. So validity and lookup agree unless a
sequential type is indexed by an operand that is no integer (`Reachable.indexing`).
-/

namespace TypeGraph

/-- The families whose views can be indexed. -/
def Family.isIndexable : Family → Bool
  | struct | array | vector | pointer | composite | sequential => true
  | derived | integer | function | placeholder => false

/-- A family that can be indexed admits composite kinds only. -/
theorem Family.isComposite_of_admits {f : Family} {k : Kind} (hf : f.isIndexable)
    (hk : f.admits k) : k.isComposite := by
  cases f with
  | derived | integer | function | placeholder => cases hf
  | composite => exact hk
  | sequential =>
    cases k with
    | array | vector | pointer => rfl
    | _ => cases hk
  | struct | array | vector | pointer =>
    rw [of_decide_eq_true hk]
    rfl

theorem Kind.isSequential_of_isComposite {k : Kind} (hk : k.isComposite) (hs : k ≠ .struct) :
    k.isSequential := by
  cases k with
  | struct => exact absurd rfl hs
  | _ => exact hk

namespace Graph

/-- What a view of a composite type answers of an operand. -/
structure Indexing (g : Graph) (v : View) (i : Operand) : Prop where
  /-- To demand an element is a fault exactly when none is selected. -/
  isOk_require : (g.requireElementAt v i).isOk = (g.elementAt v i).isOk
  /-- A valid index selects a component. -/
  of_valid : g.isValidIndex v i → ∃ e ∈ g.contained v.handle, g.elementAt v i = .ok e
  /-- A structure has an element for the valid indices and no others, and these are the constants
  of type `i32` below the number of its fields. -/
  struct : g.kind v.handle = .struct →
    (g.isValidIndex v i ↔ (g.elementAt v i).isOk) ∧
    (g.isValidIndex v i ↔ g.resolve i.ty = .i32 ∧
      ∃ n, i.value = some n ∧ n.toNat < (g.contained v.handle).length)
  /-- A sequential type has its only component for every operand, and the valid indices are the
  integers. -/
  sequential : g.kind v.handle ≠ .struct →
    (∃ e, g.contained v.handle = [e] ∧ g.elementAt v i = .ok e) ∧
    (g.isValidIndex v i ↔ g.kind i.ty = .integer)
  /-- Validity and lookup agree of structures, and of operands that are integers. -/
  agree_iff : (g.isValidIndex v i ↔ (g.elementAt v i).isOk) ↔
    g.kind v.handle = .struct ∨ g.kind i.ty = .integer
  /-- The composite view of the type answers alike. -/
  composite : g.cast .composite v.handle = .ok ⟨.composite, v.handle⟩ ∧
    g.isValidIndex ⟨.composite, v.handle⟩ i = g.isValidIndex v i ∧
    g.elementAt ⟨.composite, v.handle⟩ i = g.elementAt v i ∧
    g.requireElementAt ⟨.composite, v.handle⟩ i = g.requireElementAt v i

variable {g : Graph} {f : Family} {h : Handle} {v w : View} {i : Operand}

/-! ## Views -/

theorem cast_eq_ok_iff : g.cast f h = .ok v ↔ f.admits (g.kind h) ∧ v = ⟨f, g.resolve h⟩ := by
  unfold cast view? isIn
  by_cases hf : f.admits (g.kind h)
  · rw [if_pos hf]
    simp [hf, eq_comm]
  · rw [if_neg hf]
    simp [hf]

/-- A view that can be indexed goes by fields exactly when the type is a structure. -/
theorem indexesFields_iff (hf : v.family.isIndexable) (hv : v.family.admits (g.kind v.handle)) :
    g.indexesFields v ↔ g.kind v.handle = .struct := by
  obtain ⟨f, h⟩ := v
  unfold indexesFields
  cases f with
  | derived | integer | function | placeholder => cases hf
  | struct => exact ⟨fun _ => of_decide_eq_true hv, fun _ => rfl⟩
  | composite => exact decide_eq_true_iff
  | array | vector | pointer =>
    refine ⟨fun hn => (by cases hn), fun hs => ?_⟩
    cases (of_decide_eq_true hv).symm.trans hs
  | sequential =>
    refine ⟨fun hn => (by cases hn), fun hs => ?_⟩
    change (g.kind h).isSequential = true at hv
    rw [show g.kind h = .struct from hs] at hv
    cases hv

/-! ## The three questions -/

theorem isOk_requireElementAt (g : Graph) (v : View) (i : Operand) :
    (g.requireElementAt v i).isOk = (g.elementAt v i).isOk := by
  unfold requireElementAt
  cases g.elementAt v i <;> rfl

/-- Views of one type that both go by fields, or both do not, answer alike. -/
theorem answers_congr (hh : w.handle = v.handle) (hi : g.indexesFields w = g.indexesFields v)
    (i : Operand) : g.isValidIndex w i = g.isValidIndex v i ∧
      g.elementAt w i = g.elementAt v i ∧ g.requireElementAt w i = g.requireElementAt v i := by
  have hvalid : g.isValidIndex w i = g.isValidIndex v i := by
    unfold isValidIndex
    rw [hh, hi]
  have helement : g.elementAt w i = g.elementAt v i := by
    unfold elementAt
    rw [hh, hi]
  refine ⟨hvalid, helement, ?_⟩
  unfold requireElementAt
  rw [helement]

/-- The operand selects a field of a structure if it is a constant of type `i32` below the number of
fields. -/
theorem isOk_fieldAt_iff : (g.fieldAt h i).isOk ↔
    g.resolve i.ty = .i32 ∧ ∃ n, i.value = some n ∧ n.toNat < (g.contained h).length := by
  unfold fieldAt
  cases hn : i.value with
  | none => simp [Except.isOk, Except.toBool]
  | some n =>
    by_cases hty : g.resolve i.ty = .i32
    · by_cases hlt : n.toNat < (g.contained h).length
      · simp [hty, hlt, Except.isOk, Except.toBool]
      · simp [hty, hlt, Except.isOk, Except.toBool]
    · simp [hty, Except.isOk, Except.toBool]

/-- A field that an operand selects is a component. -/
theorem mem_contained_of_fieldAt {e : Handle} (he : g.fieldAt h i = .ok e) :
    e ∈ g.contained h := by
  unfold fieldAt at he
  simp only at he
  split at he
  · cases he
  · split at he
    · split at he
      · next hget =>
        cases he
        exact List.mem_of_getElem? hget
      · cases he
    · cases he

theorem exists_of_isOk {ε α : Type} {x : Except ε α} (hx : x.isOk) : ∃ a, x = .ok a := by
  cases x with
  | error e => cases hx
  | ok a => exact ⟨a, rfl⟩

/-- A sequential type holds one component. -/
theorem Reachable.contained_of_sequential (hg : Reachable g) (hs : (g.kind h).isSequential) :
    ∃ e, g.contained h = [e] ∧ g.element h = e := by
  have htakes := hg.consistent.wellFormed.takes (hg.consistent.wellFormed.live_resolve h)
  have hone : (g.contained h).length = 1 := by
    unfold kind live Node.kind at hs
    cases hshape : (g.node (g.resolve h)).shape <;> rw [hshape] at hs htakes <;>
      first | exact htakes | cases hs
  obtain ⟨e, he⟩ := List.length_eq_one_iff.1 hone
  refine ⟨e, he, ?_⟩
  unfold contained at he
  rw [element, he, List.headD_cons]

/-! ## Answers by kind -/

section Answers

variable (hf : v.family.isIndexable) (hv : v.family.admits (g.kind v.handle))
include hf hv

/-- Of a structure both answers come from its fields. -/
theorem answers_of_struct (hs : g.kind v.handle = .struct) (i : Operand) :
    g.isValidIndex v i = (g.fieldAt v.handle i).isOk ∧
      g.elementAt v i = g.fieldAt v.handle i := by
  have hfields := (indexesFields_iff hf hv).2 hs
  exact ⟨if_pos hfields, if_pos hfields⟩

/-- A sequential type has its only component for every operand. -/
theorem Reachable.answers_of_sequential (hg : Reachable g) (hs : g.kind v.handle ≠ .struct)
    (i : Operand) : (∃ e, g.contained v.handle = [e] ∧ g.elementAt v i = .ok e) ∧
      (g.isValidIndex v i ↔ g.kind i.ty = .integer) := by
  have hfields := mt (indexesFields_iff hf hv).1 hs
  obtain ⟨e, he, helement⟩ := hg.contained_of_sequential
    (Kind.isSequential_of_isComposite (Family.isComposite_of_admits hf hv) hs)
  refine ⟨⟨e, he, ?_⟩, ?_⟩
  · rw [elementAt, if_neg hfields, helement]
  · rw [isValidIndex, if_neg hfields]
    exact decide_eq_true_iff

/-- The composite view of a type answers as any other does. -/
theorem answers_composite (i : Operand) :
    g.isValidIndex ⟨.composite, v.handle⟩ i = g.isValidIndex v i ∧
      g.elementAt ⟨.composite, v.handle⟩ i = g.elementAt v i ∧
      g.requireElementAt ⟨.composite, v.handle⟩ i = g.requireElementAt v i := by
  refine answers_congr (v := v) (w := ⟨.composite, v.handle⟩) rfl (Bool.eq_iff_iff.2 ?_) i
  have hcomposite : Family.composite.admits (g.kind v.handle) :=
    Family.isComposite_of_admits hf hv
  exact (indexesFields_iff (v := ⟨.composite, v.handle⟩) rfl hcomposite).trans
    (indexesFields_iff hf hv).symm

theorem Reachable.indexing_of_admits (hg : Reachable g) (hl : g.Live v.handle) (i : Operand) :
    g.Indexing v i where
  isOk_require := isOk_requireElementAt g v i
  of_valid := by
    intro hvalid
    by_cases hs : g.kind v.handle = .struct
    · obtain ⟨hfield, helement⟩ := answers_of_struct hf hv hs i
      rw [hfield] at hvalid
      obtain ⟨e, he⟩ := exists_of_isOk hvalid
      exact ⟨e, mem_contained_of_fieldAt he, helement.trans he⟩
    · obtain ⟨⟨e, he, helement⟩, -⟩ := hg.answers_of_sequential hf hv hs i
      exact ⟨e, he ▸ List.mem_singleton_self e, helement⟩
  struct := by
    intro hs
    obtain ⟨hfield, helement⟩ := answers_of_struct hf hv hs i
    rw [hfield, helement]
    exact ⟨Iff.rfl, isOk_fieldAt_iff⟩
  sequential := fun hs => hg.answers_of_sequential hf hv hs i
  agree_iff := by
    by_cases hs : g.kind v.handle = .struct
    · obtain ⟨hfield, helement⟩ := answers_of_struct hf hv hs i
      rw [hfield, helement]
      exact ⟨fun _ => .inl hs, fun _ => Iff.rfl⟩
    · obtain ⟨⟨e, -, helement⟩, hvalid⟩ := hg.answers_of_sequential hf hv hs i
      rw [helement, hvalid]
      exact ⟨fun hagree => .inr (hagree.2 rfl), fun hty =>
        ⟨fun _ => rfl, fun _ => hty.resolve_left hs⟩⟩
  composite := by
    refine ⟨cast_eq_ok_iff.2 ⟨Family.isComposite_of_admits hf hv, ?_⟩, answers_composite hf hv i⟩
    rw [hl.resolve_eq]

end Answers

/-! ## The theorem -/

/-- **Indexing.** Any view of a composite type answers by its kind: of a structure an index is valid
exactly when it selects an element, and of a sequential type every operand selects the element. -/
theorem Reachable.indexing (hg : Reachable g) (hf : f.isIndexable) (hv : g.cast f h = .ok v)
    (i : Operand) : g.Indexing v i := by
  obtain ⟨hadmits, rfl⟩ := cast_eq_ok_iff.1 hv
  have hl := hg.consistent.wellFormed.live_resolve h
  have hkind : g.kind (g.resolve h) = g.kind h := congrArg (fun x => (g.node x).kind) hl.resolve_eq
  rw [← hkind] at hadmits
  exact hg.indexing_of_admits (v := ⟨f, g.resolve h⟩) hf hadmits hl i

set_option maxRecDepth 10000 in
/-- A handle of a placeholder that became a recursive structure can be indexed as that structure: an
`i32` below two is valid, and the composite view says so too. -/
theorem indexing_recursive : ∃ g v, initial.play
    [.placeholder, .pointer ⟨9⟩, .struct [⟨10⟩, .i8] false, .refine ⟨9⟩ ⟨11⟩] = some g ∧
    Family.isIndexable .struct ∧ g.cast .struct ⟨9⟩ = .ok v ∧ g.Indexing v ⟨.i32, some 1⟩ ∧
    g.Indexing v ⟨.i32, some 2⟩ ∧
    g.isValidIndex v ⟨.i32, some 1⟩ = true ∧ g.isValidIndex v ⟨.i32, some 2⟩ = false := by
  have h : ((initial.play
      [.placeholder, .pointer ⟨9⟩, .struct [⟨10⟩, .i8] false, .refine ⟨9⟩ ⟨11⟩]).map fun g =>
      ((g.cast .struct ⟨9⟩).toOption, g.isValidIndex ⟨.struct, ⟨11⟩⟩ ⟨.i32, some 1⟩,
        g.isValidIndex ⟨.struct, ⟨11⟩⟩ ⟨.i32, some 2⟩)) =
      some (some ⟨.struct, ⟨11⟩⟩, true, false) := by cbv
  obtain ⟨g, hg, heq⟩ := Option.map_eq_some_iff.1 h
  simp only [Prod.mk.injEq] at heq
  obtain ⟨hcast, hvalid, hinvalid⟩ := heq
  have hcast := eq_ok_of_toOption hcast
  have hreach := Reachable.initial.play hg
  exact ⟨g, _, hg, rfl, hcast, hreach.indexing rfl hcast ⟨.i32, some 1⟩,
    hreach.indexing rfl hcast ⟨.i32, some 2⟩, hvalid, hinvalid⟩

set_option maxRecDepth 10000 in
/-- A pointer gives its element for an operand of type `float`, which is no valid index, and to
demand the element is no fault. -/
theorem not_valid_of_selects : ∃ g v, initial.play [.pointer .i32] = some g ∧ Reachable g ∧
    Family.isIndexable .pointer ∧ g.cast .pointer ⟨9⟩ = .ok v ∧
    g.requireElementAt v ⟨.float, none⟩ = .ok .i32 ∧
    ¬ (g.isValidIndex v ⟨.float, none⟩ ↔ (g.elementAt v ⟨.float, none⟩).isOk) := by
  have h : ((initial.play [.pointer .i32]).map fun g =>
      ((g.cast .pointer ⟨9⟩).toOption, (g.requireElementAt ⟨.pointer, ⟨9⟩⟩ ⟨.float, none⟩).toOption,
        g.isValidIndex ⟨.pointer, ⟨9⟩⟩ ⟨.float, none⟩,
        (g.elementAt ⟨.pointer, ⟨9⟩⟩ ⟨.float, none⟩).isOk)) =
      some (some ⟨.pointer, ⟨9⟩⟩, some .i32, false, true) := by cbv
  obtain ⟨g, hg, heq⟩ := Option.map_eq_some_iff.1 h
  simp only [Prod.mk.injEq] at heq
  obtain ⟨hcast, hrequire, hinvalid, hselects⟩ := heq
  refine ⟨g, _, hg, Reachable.initial.play hg, rfl, eq_ok_of_toOption hcast,
    eq_ok_of_toOption hrequire, ?_⟩
  rw [hinvalid, hselects]
  simp

end Graph

end TypeGraph
