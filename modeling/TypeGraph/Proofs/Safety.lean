import Mathlib.Algebra.Group.Nat.Defs
import TypeGraph.Proofs.Progress

/-!
# Only misuse fails

An action on types of a reachable graph fails just when it is misused: a width that no integer has,
an element that no vector takes, a refinement of a type that was replaced, is concrete or is its own
replacement. Such an action has changed nothing when it fails, and all others pass each check on
their way.
-/

namespace TypeGraph.Graph

/-- What an action must not be asked for, and how it fails if it is. -/
inductive Misused (g : Graph) : Action → Failure → Prop where
  | width {bits : UInt32} (hb : bits.toNat < 1 ∨ 2 ^ 23 - 1 < bits.toNat) :
      Misused g (.integer bits) (.refused (.invalidWidth bits))
  | element {elem : Handle} {len : UInt32} (hi : g.kind elem ≠ .integer)
      (hf : g.kind elem ≠ .primitive .float) (hd : g.kind elem ≠ .primitive .double) :
      Misused g (.vector elem len) (.fault (.vectorElement (g.kind elem)))
  | retired {old new : Handle} (hl : ¬ g.Live old) :
      Misused g (.refine old new) (.fault (.alreadyRefined old))
  | concrete {old new : Handle} (hl : g.Live old) (ha : (g.node old).isAbstract = false) :
      Misused g (.refine old new) (.fault (.notAbstract old))
  | itself {old new : Handle} (hl : g.Live old) (ha : (g.node old).isAbstract)
      (hr : g.resolve new = old) : Misused g (.refine old new) (.fault (.selfRefinement old))

/-- The states that working off an agenda passes through. -/
inductive Moment (g : Graph) (agenda : List Task) : Graph → List Task → Prop where
  | start : Moment g agenda g agenda
  | step {g' : Graph} {t : Task} {rest : List Task} (hm : Moment g agenda g' (t :: rest))
      (hf : t.fault? = none) : Moment g agenda (g'.step t).graph ((g'.step t).tasks ++ rest)

/-- Only misuse fails, it changes nothing, and nothing else that is checked on the way can fail. -/
structure Guarded (g : Graph) : Prop where
  /-- An action on types of the arena fails just when it is misused. -/
  perform_eq_error_iff : ∀ {a e}, (∀ h ∈ a.handles, h.index < g.size) →
    (g.perform a = .error e ↔ Misused g a e)
  /-- A refinement that fails has changed nothing by then. -/
  graph_eq_of_error : ∀ {old new f g' agenda}, new.index < g.size →
    g.refine old new = .error f → Moment g [.refine old new] g' agenda → g' = g
  /-- Any other refinement passes each check on its way. -/
  passes : ∀ {old new g' t rest}, g.Refinable old new → new.index < g.size →
    Moment g [.refine old new] g' (t :: rest) → g'.Passes t
  /-- A factory registers each new type for the first time. -/
  entry?_next : g.registry.entry? g.next = none

variable {g g' : Graph} {old new : Handle} {agenda agenda' : List Task} {f : Fault}

/-! ## Misuse -/

theorem refinable_or_misused (g : Graph) (old new : Handle) :
    g.Refinable old new ∨ ∃ f, Misused g (.refine old new) (.fault f) := by
  by_cases hl : g.Live old
  · cases ha : (g.node old).isAbstract with
    | false => exact .inr ⟨_, .concrete hl ha⟩
    | true =>
      by_cases hr : g.resolve new = old
      · exact .inr ⟨_, .itself hl ha hr⟩
      · exact .inl ⟨hl, ha, hr⟩
  · exact .inr ⟨_, .retired hl⟩

/-- A misused refinement gives up at once. -/
theorem Misused.refineStep_eq (h : Misused g (.refine old new) (.fault f)) :
    g.refineStep old new = ⟨g, [.abort f], []⟩ := by
  unfold refineStep
  cases h with
  | retired hl => rw [if_pos (by simpa [← isRetired_eq_false_iff] using hl)]
  | concrete hl ha =>
    have hr := isRetired_eq_false_iff.2 hl
    rw [if_neg (by simp [hr]), if_pos (by simp [ha])]
  | itself hl ha hr =>
    have hr' := isRetired_eq_false_iff.2 hl
    rw [if_neg (by simp [hr']), if_neg (by simp [ha]), if_pos hr]

theorem Misused.refine_eq (h : Misused g (.refine old new) (.fault f)) :
    g.refine old new = .error f := by
  have hstep : g.step (.refine old new) = ⟨g, [.abort f], []⟩ := h.refineStep_eq
  unfold refine
  rw [run]
  show (g.step (.refine old new)).graph.run ((g.step (.refine old new)).tasks ++ []) _ = _
  rw [hstep, List.append_nil, run]
  rfl

/-- A misused refinement never leaves the graph that it started from. -/
theorem Misused.graph_eq (h : Misused g (.refine old new) (.fault f))
    (hm : Moment g [.refine old new] g' agenda) :
    g' = g ∧ (agenda = [.refine old new] ∨ agenda = [.abort f]) := by
  induction hm with
  | start => exact ⟨rfl, .inl rfl⟩
  | step hm hf ih =>
    obtain ⟨hg, heq | heq⟩ := ih
    · cases heq
      have hstep : g.step (.refine old new) = ⟨g, [.abort f], []⟩ := h.refineStep_eq
      rw [hg, hstep]
      exact ⟨rfl, .inr rfl⟩
    · cases heq
      cases hf

/-! ## Refinements -/

theorem Sound.moment (hs : Sound g agenda) (hm : Moment g agenda g' agenda') :
    Sound g' agenda' := by
  induction hm with
  | start => exact hs
  | step _ _ ih => exact ih.step

/-- From a sound state the agenda is worked off without a fault. -/
theorem Sound.exists_run (hs : Sound g agenda) (heard : List Event) :
    ∃ out, g.run agenda heard = .ok out := by
  fun_induction run g agenda heard with
  | case1 g heard => exact ⟨_, rfl⟩
  | case2 g heard t rest f hf =>
    have hpass := hs.passes
    cases t with
    | abort f => exact hpass.elim
    | refine | settle | announce => cases hf
  | case3 g heard t rest hf out ih => exact ih hs.step

theorem Reachable.sound (hg : Reachable g) (hr : g.Refinable old new) (hlt : new.index < g.size) :
    Sound g [.refine old new] := by
  have hc := hg.consistent.begin hr hlt
  refine .beginning hr ⟨fun a b hm => ?_, fun t ht => ?_, hc, hg.attended.begin hr hc.toPoised⟩
  · cases List.mem_singleton.1 hm
  · cases List.mem_singleton.1 ht
    rfl

theorem Reachable.refine_eq_error_iff (hg : Reachable g) (hlt : new.index < g.size) :
    g.refine old new = .error f ↔ Misused g (.refine old new) (.fault f) := by
  refine ⟨fun h => ?_, Misused.refine_eq⟩
  rcases g.refinable_or_misused old new with hr | ⟨f', hm⟩
  · obtain ⟨out, hout⟩ := (hg.sound hr hlt).exists_run []
    unfold refine at h
    rw [hout] at h
    cases h
  · rw [hm.refine_eq] at h
    cases h
    exact hm

/-! ## Factories -/

theorem isValid_eq_false_iff {bits : UInt32} :
    IntegerWidth.isValid bits = false ↔ bits.toNat < 1 ∨ 2 ^ 23 - 1 < bits.toNat := by
  unfold IntegerWidth.isValid IntegerWidth.least IntegerWidth.greatest
  rw [Bool.and_eq_false_iff, decide_eq_false_iff_not, decide_eq_false_iff_not,
    UInt32.le_iff_toNat_le, UInt32.le_iff_toNat_le]
  show ¬ 1 ≤ bits.toNat ∨ ¬ bits.toNat ≤ 8388607 ↔ _
  omega

theorem isVectorElement_eq_false_iff {k : Kind} : k.isVectorElement = false ↔
    k ≠ .integer ∧ k ≠ .primitive .float ∧ k ≠ .primitive .double := by
  cases k with
  | primitive p => cases p <;> decide
  | _ => decide

theorem integer_eq_error_iff {bits : UInt32} {e : Failure} :
    g.perform (.integer bits) = .error e ↔ Misused g (.integer bits) e := by
  rw [perform, integer]
  cases hv : IntegerWidth.isValid bits with
  | true =>
    refine ⟨fun h => (by cases h), fun h => ?_⟩
    cases h with
    | width hb => rw [isValid_eq_false_iff.2 hb] at hv; cases hv
  | false =>
    constructor
    · intro h
      cases h
      exact .width (isValid_eq_false_iff.1 hv)
    · rintro ⟨⟩
      rfl

theorem vector_eq_error_iff {elem : Handle} {len : UInt32} {e : Failure} :
    g.perform (.vector elem len) = .error e ↔ Misused g (.vector elem len) e := by
  rw [perform, vector]
  cases hv : (g.kind elem).isVectorElement with
  | true =>
    refine ⟨fun h => (by cases h), fun h => ?_⟩
    cases h with
    | element hi hf hd => rw [isVectorElement_eq_false_iff.2 ⟨hi, hf, hd⟩] at hv; cases hv
  | false =>
    constructor
    · intro h
      cases h
      obtain ⟨hi, hf, hd⟩ := isVectorElement_eq_false_iff.1 hv
      exact .element hi hf hd
    · rintro ⟨⟩
      rfl

theorem Misused.exists_fault {e : Failure} (h : Misused g (.refine old new) e) :
    ∃ f, e = .fault f := by
  cases h <;> exact ⟨_, rfl⟩

/-- An action on types of a reachable graph fails just when it is misused. -/
theorem Reachable.perform_eq_error_iff (hg : Reachable g) {a : Action} {e : Failure}
    (ha : ∀ h ∈ a.handles, h.index < g.size) : g.perform a = .error e ↔ Misused g a e := by
  cases a with
  | integer bits => exact integer_eq_error_iff
  | vector elem len => exact vector_eq_error_iff
  | refine old new =>
    have hlt : new.index < g.size := ha new (by simp [Action.handles])
    rw [Graph.perform]
    constructor
    · intro h
      split at h
      · cases h
      · next f hr =>
        cases h
        exact (hg.refine_eq_error_iff hlt).1 hr
    · intro h
      obtain ⟨f, rfl⟩ := h.exists_fault
      rw [(hg.refine_eq_error_iff hlt).2 h]
  | subscribe ty =>
    rw [Graph.perform]
    split <;> exact ⟨fun h => (by cases h), fun h => (by cases h)⟩
  | unsubscribe id =>
    rw [Graph.perform]
    split <;> exact ⟨fun h => (by cases h), fun h => (by cases h)⟩
  | function | struct | array | pointer | placeholder =>
    exact ⟨fun h => (by cases h), fun h => (by cases h)⟩

/-- **Only misuse fails.** In a reachable graph nothing fails but what is misused, and that leaves
the graph as it was. -/
theorem Reachable.guarded (hg : Reachable g) : g.Guarded where
  perform_eq_error_iff := hg.perform_eq_error_iff
  graph_eq_of_error := fun hlt h hm => (((hg.refine_eq_error_iff hlt).1 h).graph_eq hm).1
  passes := fun hr hlt hm => ((hg.sound hr hlt).moment hm).passes
  entry?_next := Registry.entry?_eq_none_iff.2 (not_holds_next hg.consistent.indexed)

set_option maxRecDepth 10000 in
/-- A closed list and an open one. The open one can be refined, which merges it into the closed one
by a refinement within the refinement, and each misuse has its own fault. -/
theorem guarded_lists : ∃ g, initial.play
    [.placeholder, .pointer ⟨9⟩, .struct [.i32, ⟨10⟩] false, .refine ⟨9⟩ ⟨11⟩,
      .placeholder, .pointer ⟨12⟩, .struct [.i32, ⟨13⟩] false] = some g ∧
    g.Guarded ∧ (g.perform (.refine ⟨12⟩ ⟨14⟩)).isOk ∧
    g.perform (.refine ⟨9⟩ ⟨12⟩) = .error (.fault (.alreadyRefined ⟨9⟩)) ∧
    g.perform (.refine ⟨11⟩ ⟨12⟩) = .error (.fault (.notAbstract ⟨11⟩)) ∧
    g.perform (.refine ⟨14⟩ ⟨14⟩) = .error (.fault (.selfRefinement ⟨14⟩)) ∧
    g.perform (.vector ⟨14⟩ 4) = .error (.fault (.vectorElement .struct)) ∧
    g.perform (.integer 8388608) = .error (.refused (.invalidWidth 8388608)) := by
  have h : ((initial.play
      [.placeholder, .pointer ⟨9⟩, .struct [.i32, ⟨10⟩] false, .refine ⟨9⟩ ⟨11⟩,
        .placeholder, .pointer ⟨12⟩, .struct [.i32, ⟨13⟩] false]).map fun g =>
      ((g.perform (.refine ⟨12⟩ ⟨14⟩)).isOk, g.size, (g.node ⟨9⟩).forward,
        (g.node ⟨11⟩).forward, (g.node ⟨11⟩).isAbstract, (g.node ⟨14⟩).forward,
        (g.node ⟨14⟩).isAbstract, g.resolve ⟨14⟩, g.kind ⟨14⟩)) =
          some (true, 15, some ⟨11⟩, none, false, none, true, ⟨14⟩, .struct) := by cbv
  obtain ⟨g, hg, heq⟩ := Option.map_eq_some_iff.1 h
  simp only [Prod.mk.injEq] at heq
  obtain ⟨hok, hsize, hfwd, hlive, hconcrete, hlive', habs, hself, hkind⟩ := heq
  have hguard := (Reachable.initial.play hg).guarded
  refine ⟨g, hg, hguard, hok, (hguard.perform_eq_error_iff ?_).2 ?_,
    (hguard.perform_eq_error_iff ?_).2 ?_, (hguard.perform_eq_error_iff ?_).2 ?_,
    (hguard.perform_eq_error_iff ?_).2 ?_, (hguard.perform_eq_error_iff ?_).2 ?_⟩
  · simp [Action.handles, hsize]
  · exact .retired (by simp [Live, hfwd])
  · simp [Action.handles, hsize]
  · exact .concrete hlive hconcrete
  · simp [Action.handles, hsize]
  · exact .itself hlive' habs hself
  · simp [Action.handles, hsize]
  · rw [← hkind]
    exact .element (by simp [hkind]) (by simp [hkind]) (by simp [hkind])
  · simp [Action.handles]
  · exact .width (.inr (by decide))

end TypeGraph.Graph
