import TypeGraph.Proofs.Growth

/-!
# Factories hash-cons

A factory call describes a type with its components resolved, and the type that it gives reads back
that description. Two calls with no refinement between them give one handle exactly when their
descriptions agree, where attribute lists count up to trailing empty sets.

1. Descriptions agree when they have one trimmed key (`Description.agrees_iff`).
2. So calls describe the same when they ask for one key (`sameRequest_iff`), and a type reads back a
   call when it has the key that is asked for (`Reachable.key_of_readsBack`).
3. A key has one live type, which stays while the graph grows, so calls give one handle when they ask
   for one key (`Reachable.made_eq_iff`, `Reachable.hashConses`).
-/

namespace TypeGraph

/-! ## Descriptions -/

/-- A key is taken apart into what it is the key of. -/
theorem Key.describe?_eq_some_iff {k : Key} {d : Description} :
    k.describe? = some d ↔ k = d.key := by
  constructor
  · intro h
    obtain ⟨s, parts⟩ := k
    cases s <;> rcases parts with _ | ⟨_, _ | _⟩ <;> cases h <;> rfl
  · rintro rfl
    cases d with
    | struct fields => cases fields <;> rfl
    | _ => rfl

namespace Description

variable {d d' d'' : Description}

theorem key_inj : d.key = d'.key ↔ d = d' := by
  refine ⟨fun h => ?_, congrArg key⟩
  have hd := Key.describe?_eq_some_iff.2 h
  rw [Key.describe?_eq_some_iff.2 rfl] at hd
  exact Option.some.inj hd

theorem key_trimmed (d : Description) : d.trimmed.key = ⟨d.key.shape.trimmed, d.key.parts⟩ := by
  cases d <;> rfl

theorem Agrees.symm (h : d.Agrees d') : d'.Agrees d := by
  cases h with
  | refl => exact .refl d
  | function h => exact .function fun i => (h i).symm

theorem Agrees.trans (h : d.Agrees d') (h' : d'.Agrees d'') : d.Agrees d'' := by
  cases h with
  | refl => exact h'
  | function h =>
    cases h' with
    | refl => exact .function h
    | function h' => exact .function fun i => (h i).trans (h' i)

theorem agrees_trimmed (d : Description) : d.Agrees d.trimmed := by
  cases d with
  | function _ _ _ attrs => exact .function fun i => (Attributes.entry_trim attrs i).symm
  | _ => exact .refl _

/-- Descriptions agree when they have one trimmed form. -/
theorem agrees_iff : d.Agrees d' ↔ d.trimmed = d'.trimmed := by
  constructor
  · rintro (_ | h)
    · rfl
    · exact congrArg (function _ _ _) (Attributes.trim_eq_trim_iff.2 h)
  · intro h
    exact (agrees_trimmed d).trans (h ▸ (agrees_trimmed d').symm)

end Description

namespace Graph

/-- The type reads back what a factory call describes: the kind, the resolved components, all
scalars, and the attributes at every index. -/
def ReadsBack (g g' : Graph) (a : Action) (h : Handle) : Prop :=
  ∃ d d', g.asked? a = some d ∧ g'.describe? h = some d' ∧ d.Agrees d'

/-- Two calls, each in its graph, are to the same factory with equal resolved components and equal
scalars, and with attributes that agree at every index. -/
def SameRequest (g g' : Graph) (a b : Action) : Prop :=
  ∃ d d', g.asked? a = some d ∧ g'.asked? b = some d' ∧ d.Agrees d'

/-- The factories give each type that they are asked for one handle. -/
structure HashConses (g : Graph) : Prop where
  /-- A factory call that is not misused gives a live type that reads back the call. -/
  exists_made : ∀ {a}, a.isFactory → (∀ h ∈ a.handles, h.index < g.size) →
    (∀ e, ¬ g.Misused a e) → ∃ h g', g.perform a = .ok ⟨g', .made h, []⟩ ∧
      g'.Live h ∧ h.index < g'.size ∧ g.ReadsBack g' a h
  /-- A function type has the attributes that were given, and none past the end of their list. -/
  paramAttrs_eq : ∀ {ret params varargs attrs h g' events},
    (∀ k ∈ ret :: params, k.index < g.size) →
    g.perform (.function ret params varargs attrs) = .ok ⟨g', .made h, events⟩ →
      ∀ i, g'.paramAttrs h i = .ok (Attributes.entry attrs i)
  /-- Two calls with no refinement between them give one handle exactly when they ask for the same,
  and then the second one changes nothing. -/
  eq_iff : ∀ {a b h h' g₁ g₂ g₃ events events'}, a.isFactory → b.isFactory →
    (∀ k ∈ a.handles, k.index < g.size) → (∀ k ∈ b.handles, k.index < g₂.size) →
    g.perform a = .ok ⟨g₁, .made h, events⟩ → Grows g₁ g₂ →
    g₂.perform b = .ok ⟨g₃, .made h', events'⟩ →
      (h = h' ↔ g.SameRequest g₂ a b) ∧ (h = h' → g₃ = g₂)
  /-- A repeated call gives the same handle and changes nothing. -/
  again : ∀ {a h g₁ g₂ events}, a.isFactory → (∀ k ∈ a.handles, k.index < g.size) →
    g.perform a = .ok ⟨g₁, .made h, events⟩ → Grows g₁ g₂ →
      g₂.perform a = .ok ⟨g₂, .made h, []⟩
  /-- A call hits the type that reads it back, and changes nothing. -/
  hit : ∀ {a h}, a.isFactory → (∀ e, ¬ g.Misused a e) → g.Live h → g.ReadsBack g a h →
    g.perform a = .ok ⟨g, .made h, []⟩
  /-- A call that no type reads back appends one node, and changes nothing else but the counts of
  its abstract components. -/
  miss : ∀ {a h g' events}, a.isFactory → (∀ k ∈ a.handles, k.index < g.size) →
    g.perform a = .ok ⟨g', .made h, events⟩ → (∀ k, g.Live k → ¬ g.ReadsBack g a k) →
      h = g.next ∧ g.Appends g' (a.handles.map g.resolve)

variable {g g' : Graph} {a b : Action} {key key' : Key} {h h' : Handle}

/-! ## Requests -/

/-- A factory call that is not misused asks for a key. -/
theorem exists_requested (hf : a.isFactory) (hm : ∀ e, ¬ g.Misused a e) :
    ∃ key, g.requested a = some key := by
  cases a with
  | integer bits =>
    cases hv : IntegerWidth.isValid bits with
    | true => exact ⟨_, if_pos hv⟩
    | false => exact absurd (.width (isValid_eq_false_iff.1 hv)) (hm _)
  | vector elem len =>
    cases hv : (g.kind elem).isVectorElement with
    | true => exact ⟨_, if_pos hv⟩
    | false =>
      obtain ⟨hi, hfloat, hd⟩ := isVectorElement_eq_false_iff.1 hv
      exact absurd (.element hi hfloat hd) (hm _)
  | function | struct | array | pointer => exact ⟨_, rfl⟩
  | placeholder | refine | subscribe | unsubscribe => cases hf

/-- A factory call that is answered asked for a key. -/
theorem requested_of_perform (hf : a.isFactory) {p : Performed} (hp : g.perform a = .ok p) :
    ∃ key, g.requested a = some key ∧ p = .ofMade (g.intern key) := by
  cases performs_of_perform hp with
  | make hk => exact ⟨_, hk, rfl⟩
  | placeholder | refine | subscribe | decline | unsubscribe | ignore => cases hf

/-- The key that is asked for is the trimmed key of what is described. -/
theorem exists_asked (hk : g.requested a = some key) :
    ∃ d, g.asked? a = some d ∧ d.trimmed.key = key := by
  cases a with
  | integer bits =>
    rw [requested] at hk
    split at hk
    · cases hk
      exact ⟨_, rfl, rfl⟩
    · cases hk
  | vector elem len =>
    rw [requested] at hk
    split at hk
    · cases hk
      exact ⟨_, rfl, rfl⟩
    · cases hk
  | function | struct | array | pointer =>
    cases hk
    exact ⟨_, rfl, rfl⟩
  | placeholder | refine | subscribe | unsubscribe => cases hk

/-- Calls describe the same when they ask for one key. -/
theorem sameRequest_iff (ha : g.requested a = some key) (hb : g'.requested b = some key') :
    g.SameRequest g' a b ↔ key = key' := by
  obtain ⟨d, hd, rfl⟩ := exists_asked ha
  obtain ⟨d', hd', rfl⟩ := exists_asked hb
  rw [Description.key_inj, ← Description.agrees_iff]
  constructor
  · rintro ⟨e, e', he, he', hagree⟩
    rw [hd] at he
    rw [hd'] at he'
    cases he
    cases he'
    exact hagree
  · exact fun hagree => ⟨d, d', hd, hd', hagree⟩

/-- A live type of the key that is asked for reads back the call. -/
theorem readsBack_of_key (ha : g.requested a = some key) (hl : g'.Live h)
    (hk : (g'.node h).key = key) : g.ReadsBack g' a h := by
  obtain ⟨d, hd, rfl⟩ := exists_asked ha
  refine ⟨d, d.trimmed, hd, ?_, d.agrees_trimmed⟩
  unfold describe? live
  rw [hl.resolve_eq, hk, Key.describe?_eq_some_iff]

/-- A live type that reads back a call has the key that is asked for. -/
theorem Reachable.key_of_readsBack (hg : Reachable g) (ha : g.requested a = some key)
    (hl : g.Live h) (hr : g.ReadsBack g a h) : (g.node h).key = key := by
  obtain ⟨d, d', hd, hd', hagree⟩ := hr
  obtain ⟨e, he, rfl⟩ := exists_asked ha
  rw [hd] at he
  cases he
  unfold describe? live at hd'
  rw [hl.resolve_eq, Key.describe?_eq_some_iff] at hd'
  have htrimmed : d'.key.shape.trimmed = d'.key.shape := hd' ▸ (hg.wellMade h).trimmed
  rw [hd', Description.agrees_iff.1 hagree, Description.key_trimmed, htrimmed]

/-- A function type has the attributes of its shape. -/
theorem Live.paramAttrs_eq (hl : g.Live h) {varargs : Bool} {as : List Attributes}
    (hs : (g.node h).shape = .function varargs as) (i : Nat) :
    g.paramAttrs h i = .ok (Attributes.entry as i) := by
  have hkind : g.kind h = .function := by
    unfold kind live
    rw [hl.resolve_eq, Node.kind, hs]
    rfl
  have hcast : g.cast .function h = .ok ⟨.function, h⟩ := by
    unfold cast view? isIn
    rw [hkind, if_pos (by decide), hl.resolve_eq]
  have hshape : (g.live h).shape = .function varargs as := by rw [live, hl.resolve_eq, hs]
  unfold paramAttrs
  rw [hcast]
  simp only [bind, Except.bind, hshape]

/-- What is asked for stays the same while the graph grows. -/
theorem Extends.requested_eq (hx : g.Extends g') (hwf : g.WellFormed) (hwf' : g'.WellFormed)
    (ha : ∀ k ∈ a.handles, k.index < g.size) : g'.requested a = g.requested a := by
  have hres : ∀ k ∈ a.handles, g'.resolve k = g.resolve k := fun k hk =>
    hx.resolve_eq hwf hwf' (ha k hk)
  cases a with
  | integer | placeholder | refine | subscribe | unsubscribe => rfl
  | function ret params varargs attrs =>
    obtain ⟨hret, hparams⟩ := List.forall_mem_cons.1 hres
    simp only [requested, hret, List.map_congr_left hparams]
  | struct fields packed =>
    have hfields : ∀ k ∈ fields, g'.resolve k = g.resolve k := hres
    simp only [requested, List.map_congr_left hfields]
  | array elem len | pointer elem =>
    simp only [requested, hres elem List.mem_cons_self]
  | vector elem len =>
    simp only [requested, hres elem List.mem_cons_self,
      hx.kind_eq hwf hwf' (ha elem List.mem_cons_self)]

/-! ## Hash-consing -/

/-- What a factory call made is still the live type of its key when the graph has grown. -/
theorem Reachable.made (hg : Reachable g) (ha : ∀ k ∈ a.handles, k.index < g.size)
    (hk : g.requested a = some key) {g₁ g₂ : Graph} {events : List Event}
    (hp : g.perform a = .ok ⟨g₁, .made h, events⟩) (hx : Grows g₁ g₂) :
    Reachable g₂ ∧ g.Extends g₂ ∧ g₂.Live h ∧ h.index < g₂.size ∧ (g₂.node h).key = key := by
  obtain ⟨h₁, g₁', hp₁, hg₁, hx₁, hl, hlt, hkey⟩ := hg.perform_factory ha hk
  rw [hp₁] at hp
  cases hp
  have hx₂ := hx.extends hg₁
  have hkeep := hx₂.untouched hlt
  exact ⟨hx.leads.reachable hg₁, hx₁.trans hx₂, hkeep.live_iff.2 hl, hx₂.lt hlt,
    (Node.key_of_bare hkeep.bare_eq).trans hkey⟩

/-- A call that asks for the key of an earlier one gives the type of that one, and changes
nothing. -/
theorem Reachable.perform_again (hg : Reachable g) (ha : ∀ k ∈ a.handles, k.index < g.size)
    (hka : g.requested a = some key) {g₁ g₂ : Graph} {events : List Event}
    (hp : g.perform a = .ok ⟨g₁, .made h, events⟩) (hx : Grows g₁ g₂)
    (hkb : g₂.requested b = some key) : g₂.perform b = .ok ⟨g₂, .made h, []⟩ := by
  obtain ⟨hg₂, -, hl, -, rfl⟩ := hg.made ha hka hp hx
  exact hg₂.consistent.perform_eq_self hl hkb

/-- Two calls with no refinement between them give one handle exactly when they ask for one key. -/
theorem Reachable.made_eq_iff (hg : Reachable g) (ha : ∀ k ∈ a.handles, k.index < g.size)
    (hka : g.requested a = some key) {g₁ g₂ g₃ : Graph} {events events' : List Event}
    (hpa : g.perform a = .ok ⟨g₁, .made h, events⟩) (hx : Grows g₁ g₂)
    (hb : ∀ k ∈ b.handles, k.index < g₂.size) (hkb : g₂.requested b = some key')
    (hpb : g₂.perform b = .ok ⟨g₃, .made h', events'⟩) : h = h' ↔ key = key' := by
  constructor
  · rintro rfl
    obtain ⟨hg₂, -, -, hlt, hkey⟩ := hg.made ha hka hpa hx
    obtain ⟨-, hx₃, -, -, hkey'⟩ := hg₂.made hb hkb hpb .refl
    calc key = (g₂.node h).key := hkey.symm
      _ = (g₃.node h).key := (Node.key_of_bare (hx₃.untouched hlt).bare_eq).symm
      _ = key' := hkey'
  · rintro rfl
    rw [hg.perform_again ha hka hpa hx hkb] at hpb
    cases hpb
    rfl

/-- A key that is asked for by a call that no type reads back has no instance. -/
theorem Consistent.lookup_eq_none (hc : g.Consistent []) (hk : g.requested a = some key)
    (hno : ∀ k, g.Live k → ¬ g.ReadsBack g a k) : g.registry.lookup key = none := by
  refine Option.eq_none_iff_forall_ne_some.2 fun k hfound => ?_
  obtain ⟨hlive, -, hkey⟩ := hc.lookup_eq_some_iff.1 hfound
  exact hno k hlive (readsBack_of_key hk hlive hkey)

/-- **Hash-consing.** The factories of a reachable graph give each type that they are asked for one
handle, whatever handles its components are given by. -/
theorem Reachable.hashConses (hg : Reachable g) : g.HashConses where
  exists_made := by
    intro a hf ha hm
    obtain ⟨key, hk⟩ := exists_requested hf hm
    obtain ⟨h, g', hp, -, -, hl, hlt, hkey⟩ := hg.perform_factory ha hk
    exact ⟨h, g', hp, hl, hlt, readsBack_of_key hk hl hkey⟩
  paramAttrs_eq := by
    intro ret params varargs attrs h g' events ha hp i
    obtain ⟨-, -, hl, -, hkey⟩ :=
      hg.made (a := .function ret params varargs attrs) ha rfl hp .refl
    rw [hl.paramAttrs_eq (congrArg Key.shape hkey), Attributes.entry_trim]
  eq_iff := by
    intro a b h h' g₁ g₂ g₃ events events' hfa hfb ha hb hpa hx hpb
    obtain ⟨key, hka, -⟩ := requested_of_perform hfa hpa
    obtain ⟨key', hkb, -⟩ := requested_of_perform hfb hpb
    have hiff : h = h' ↔ key = key' := hg.made_eq_iff ha hka hpa hx hb hkb hpb
    refine ⟨hiff.trans (sameRequest_iff hka hkb).symm, fun heq => ?_⟩
    have hagain := hg.perform_again ha hka hpa hx (hiff.1 heq ▸ hkb)
    rw [hpb] at hagain
    cases hagain
    rfl
  again := by
    intro a h g₁ g₂ events hf ha hp hx
    obtain ⟨key, hk, -⟩ := requested_of_perform hf hp
    obtain ⟨hg₂, hx₂, -⟩ := hg.made ha hk hp hx
    refine hg.perform_again ha hk hp hx ?_
    rwa [hx₂.requested_eq hg.consistent.wellFormed hg₂.consistent.wellFormed ha]
  hit := by
    intro a h hf hm hl hr
    obtain ⟨key, hk⟩ := exists_requested hf hm
    have hkey := hg.key_of_readsBack hk hl hr
    exact hg.consistent.perform_eq_self hl (hkey ▸ hk)
  miss := by
    intro a h g' events hf ha hp hno
    obtain ⟨key, hk, heq⟩ := requested_of_perform hf hp
    have hwf := hg.consistent.wellFormed
    have hint := internable_of_requested hwf ha hk
    have hl := hg.consistent.lookup_eq_none hk hno
    have hmade := hwf.appends_intern hint hl
    rw [(parts_of_requested hk).1] at hmade
    rw [intern_of_lookup_none hint hl] at heq hmade
    cases heq
    exact ⟨rfl, hmade⟩

set_option maxRecDepth 10000 in
/-- A function over a pointer that was merged into another one. A call with the stale pointer and a
shorter list of attributes hits it, and a call with the stale placeholder makes a new array. -/
theorem hashConses_stale : ∃ g g', initial.play
    [.placeholder, .pointer ⟨9⟩, .function .i32 [⟨10⟩] false [.none, .zeroExtended, .none],
      .pointer .i8, .refine ⟨9⟩ .i8] = some g ∧
    g.HashConses ∧ ¬ g.Live ⟨10⟩ ∧
    g.perform (.function .i32 [⟨10⟩] false [.none, .zeroExtended]) = .ok ⟨g, .made ⟨11⟩, []⟩ ∧
    g.perform (.array ⟨9⟩ 4) = .ok ⟨g', .made ⟨13⟩, []⟩ ∧ g.Appends g' [.i8] := by
  have h : ((initial.play
      [.placeholder, .pointer ⟨9⟩, .function .i32 [⟨10⟩] false [.none, .zeroExtended, .none],
        .pointer .i8, .refine ⟨9⟩ .i8]).map fun g =>
      (g.size, g.resolve ⟨9⟩, g.resolve ⟨10⟩, g.resolve .i32, (g.node ⟨10⟩).forward,
        (g.node ⟨11⟩).forward, (g.node ⟨11⟩).key,
        g.handles.all fun k => (g.live k).key ≠ .array .i8 4)) =
      some (13, .i8, ⟨12⟩, .i32, some ⟨12⟩, none,
        .function .i32 [⟨12⟩] false [.none, .zeroExtended], true) := by cbv
  obtain ⟨g, hg, h⟩ := Option.map_eq_some_iff.1 h
  simp only [Prod.mk.injEq] at h
  obtain ⟨hsize, hopened, hmerged, hret, hstale, hlive, hkey, hnew⟩ := h
  have hcons : g.HashConses := (Reachable.initial.play hg).hashConses
  have hhit : g.ReadsBack g (.function .i32 [⟨10⟩] false [.none, .zeroExtended]) ⟨11⟩ := by
    refine ⟨_, .function .i32 [⟨12⟩] false [.none, .zeroExtended], rfl, ?_, ?_⟩
    · unfold describe? live
      rw [Live.resolve_eq hlive, hkey, Key.describe?_eq_some_iff]
      rfl
    · rw [hret, List.map_singleton, hmerged]
      exact .refl _
  have hmiss : ∀ k, g.Live k → ¬ g.ReadsBack g (.array ⟨9⟩ 4) k := by
    rintro k hl ⟨d, d', hd, hd', hagree⟩
    cases hd
    cases hagree
    rw [hopened] at hd'
    have hk : (g.live k).key = .array .i8 4 := Key.describe?_eq_some_iff.1 hd'
    have hlt : k.index < g.size := by
      refine WellFormed.lt_of_isUniqued ?_
      rw [← hl.resolve_eq]
      exact (congrArg (fun key => key.kind.isUniqued) hk : _)
    exact of_decide_eq_true (List.all_eq_true.1 hnew k (mem_handles.2 hlt)) hk
  have hbound : ∀ k ∈ (Action.array ⟨9⟩ 4).handles, k.index < g.size := by
    simp [Action.handles, hsize]
  obtain ⟨h, g', hp, -⟩ := hcons.exists_made rfl hbound fun _ hm => by cases hm
  obtain ⟨rfl, hmade⟩ := hcons.miss rfl hbound hp hmiss
  have hnext : g.next = ⟨13⟩ := congrArg Handle.mk hsize
  rw [hnext] at hp
  have hparts : (Action.array ⟨9⟩ 4).handles.map g.resolve = [.i8] := congrArg (fun k => [k]) hopened
  rw [hparts] at hmade
  refine ⟨g, g', hg, hcons, ?_, hcons.hit rfl (fun _ hm => by cases hm) hlive hhit, hp, hmade⟩
  exact not_live_iff.2 ⟨_, hstale⟩

end Graph

end TypeGraph
