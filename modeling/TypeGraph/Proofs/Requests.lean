import TypeGraph.Proofs.Attributes
import TypeGraph.Proofs.Frame
import TypeGraph.Request

/-!
# What factories grant

A factory grants a shape over components if it takes their number, the width of an integer is valid
and the elements of a vector are scalars. `Performs` says once what each action does; a factory call
interns the key that it asks for.

`Reachable.grants`: each derived type of a reachable graph is one that its factory would grant
again, over the slots that it has by now.
-/

namespace TypeGraph.Graph

/-- The factory of the shape grants a type over the components. -/
structure Grants (g : Graph) (s : Shape) (parts : List Handle) : Prop where
  isUniqued : s.kind.isUniqued
  takes : s.Takes parts.length
  isValid : ∀ {bits}, s = .integer bits → IntegerWidth.isValid bits
  isVectorElement : ∀ {len}, s = .vector len → ∀ p ∈ parts, (g.kind p).isVectorElement

/-- What an action does, and what it answers. -/
inductive Performs (g : Graph) : Action → Performed → Prop where
  | make {a : Action} {key : Key} (hk : g.requested a = some key) :
      Performs g a (.ofMade (g.intern key))
  | placeholder : Performs g .placeholder (.ofMade g.placeholder)
  | refine {old new : Handle} {g' : Graph} {events : List Event}
      (hr : g.refine old new = .ok (g', events)) :
      Performs g (.refine old new) ⟨g', .refined (g'.resolve old), events⟩
  | subscribe {ty : Handle} {id : ListenerId} {g' : Graph} (hs : g.subscribe ty = some (id, g')) :
      Performs g (.subscribe ty) ⟨g', .subscribed (some id), []⟩
  /-- There was nothing to subscribe to. -/
  | decline {ty : Handle} : Performs g (.subscribe ty) ⟨g, .subscribed none, []⟩
  | unsubscribe {id : ListenerId} {g' : Graph} (hu : g.unsubscribe id = some g') :
      Performs g (.unsubscribe id) ⟨g', .unsubscribed true, []⟩
  /-- There was nothing to cancel. -/
  | ignore {id : ListenerId} : Performs g (.unsubscribe id) ⟨g, .unsubscribed false, []⟩

variable {g g' : Graph} {a : Action} {key : Key} {p : Performed} {h t old new : Handle}
  {events : List Event}

/-! ## Requests -/

/-- A factory call that is not refused interns the key that it asks for. -/
theorem perform_of_requested (hk : g.requested a = some key) :
    g.perform a = .ok (.ofMade (g.intern key)) := by
  cases a with
  | integer bits =>
    rw [requested] at hk
    split at hk
    · next hv =>
      cases hk
      rw [perform, Graph.integer, if_pos hv]
      rfl
    · cases hk
  | vector elem len =>
    rw [requested] at hk
    split at hk
    · next hv =>
      cases hk
      rw [perform, Graph.vector, if_pos hv]
      rfl
    · cases hk
  | function | struct | array | pointer =>
    cases hk
    rfl
  | placeholder | refine | subscribe | unsubscribe => cases hk

/-- An action that has an answer does one of seven things. -/
theorem performs_of_perform (hp : g.perform a = .ok p) : g.Performs a p := by
  have hmake : ∀ {key}, g.requested a = some key → g.Performs a p := by
    intro key hk
    rw [perform_of_requested hk] at hp
    cases hp
    exact .make hk
  cases a with
  | integer bits =>
    cases hv : IntegerWidth.isValid bits with
    | true => exact hmake (if_pos hv)
    | false =>
      rw [perform, Graph.integer, if_neg (by simp [hv])] at hp
      cases hp
  | vector elem len =>
    cases hv : (g.kind elem).isVectorElement with
    | true => exact hmake (if_pos hv)
    | false =>
      rw [perform, Graph.vector, if_neg (by simp [hv])] at hp
      cases hp
  | function | struct | array | pointer => exact hmake rfl
  | placeholder =>
    cases hp
    exact .placeholder
  | refine old new =>
    rw [perform] at hp
    split at hp
    · next g' events hr =>
      cases hp
      exact .refine hr
    · cases hp
  | subscribe ty =>
    rw [perform] at hp
    split at hp
    · next id g' hs =>
      cases hp
      exact .subscribe hs
    · cases hp
      exact .decline
  | unsubscribe id =>
    rw [perform] at hp
    split at hp
    · next g' hu =>
      cases hp
      exact .unsubscribe hu
    · cases hp
      exact .ignore

/-- What a factory call asks for: its components resolved, over a shape that the factory grants. -/
theorem parts_of_requested (hk : g.requested a = some key) :
    key.parts = a.handles.map g.resolve ∧ g.Grants key.shape a.handles ∧
      key.shape.trimmed = key.shape := by
  cases a with
  | integer bits =>
    rw [requested] at hk
    split at hk
    · next hv =>
      cases hk
      refine ⟨rfl, ⟨rfl, rfl, fun heq => ?_, fun heq => (by cases heq)⟩, rfl⟩
      cases heq
      exact hv
    · cases hk
  | vector elem len =>
    rw [requested] at hk
    split at hk
    · next hv =>
      cases hk
      refine ⟨rfl, ⟨rfl, rfl, fun heq => (by cases heq), fun _ p hp => ?_⟩, rfl⟩
      cases List.mem_singleton.1 hp
      exact hv
    · cases hk
  | function ret params varargs attrs =>
    cases hk
    refine ⟨rfl, ⟨rfl, Nat.le_add_left 1 _, fun heq => (by cases heq), fun heq => (by cases heq)⟩, ?_⟩
    exact congrArg (Shape.function varargs) (Attributes.trim_trim attrs)
  | struct fields packed =>
    cases hk
    exact ⟨rfl, ⟨rfl, trivial, fun heq => (by cases heq), fun heq => (by cases heq)⟩, rfl⟩
  | array | pointer =>
    cases hk
    exact ⟨rfl, ⟨rfl, rfl, fun heq => (by cases heq), fun heq => (by cases heq)⟩, rfl⟩
  | placeholder | refine | subscribe | unsubscribe => cases hk

/-- A factory grants what can be interned. -/
theorem internable_of_requested (hwf : g.WellFormed) (ha : ∀ h ∈ a.handles, h.index < g.size)
    (hk : g.requested a = some key) : g.Internable key := by
  obtain ⟨hparts, hgrants, -⟩ := parts_of_requested hk
  refine ⟨hgrants.isUniqued, ?_, ?_⟩
  · rw [hparts, List.length_map]
    exact hgrants.takes
  · rw [hparts]
    exact live_parts hwf ha

/-- What a factory grants can be asked for by a call. -/
theorem Grants.exists_call {s : Shape} {parts : List Handle} (hg : g.Grants s parts) :
    ∃ a, s.call? parts = some a ∧ a.handles = parts ∧
      g.requested a = some ⟨s.trimmed, parts.map g.resolve⟩ := by
  cases hg.takes.over with
  | primitive | placeholder => cases hg.isUniqued
  | integer bits => exact ⟨_, rfl, rfl, if_pos (hg.isValid rfl)⟩
  | function | array | pointer => exact ⟨_, rfl, rfl, rfl⟩
  | struct packed => exact ⟨.struct parts packed, by cases parts <;> rfl, rfl, rfl⟩
  | vector len elem =>
    exact ⟨_, rfl, rfl, if_pos (hg.isVectorElement rfl elem List.mem_cons_self)⟩

/-! ## Types as factories make them -/

/-- A node as factories make it: an integer has a valid width and a function trimmed attributes,
scalars and vectors are concrete, and a vector holds scalars. -/
structure WellMade (g : Graph) (n : Node) : Prop where
  isValid : ∀ {bits}, n.shape = .integer bits → IntegerWidth.isValid bits
  trimmed : n.shape.trimmed = n.shape
  concrete : n.kind.isVectorElement ∨ n.kind = .vector → n.isAbstract = false
  isVectorElement : n.kind = .vector → ∀ s ∈ n.slots, (g.node s).kind.isVectorElement

theorem WellMade.transfer {n n' : Node} (hn : g.WellMade n) (hb : n'.bare = n.bare)
    (hs : ∀ s ∈ n.slots, (g'.node s).shape = (g.node s).shape) : g'.WellMade n' := by
  have hshape := Node.shape_of_bare hb
  have hkind : n'.kind = n.kind := congrArg Shape.kind hshape
  constructor
  · rw [hshape]
    exact hn.isValid
  · rw [hshape]
    exact hn.trimmed
  · rw [hkind, Node.isAbstract_of_bare hb]
    exact hn.concrete
  · rw [hkind, Node.slots_of_bare hb]
    intro hv s hm
    rw [Node.kind, hs s hm]
    exact hn.isVectorElement hv s hm

/-- A node of a kind that is neither a scalar nor a vector is well made if its attributes are
trimmed. -/
theorem wellMade_of_trimmed {n : Node} (ht : n.shape.trimmed = n.shape)
    (hk : ¬ (n.kind.isVectorElement ∨ n.kind = .vector)) : g.WellMade n where
  isValid := by
    intro bits hs
    refine absurd (.inl ?_) hk
    rw [Node.kind, hs]
    rfl
  trimmed := ht
  concrete := fun h => absurd h hk
  isVectorElement := fun h => absurd (.inr h) hk

/-- All types are well made after a step that keeps them and makes one well-made type at most. -/
theorem wellMade_extend (hwf : g.WellFormed) (hg : ∀ h, g.WellMade (g.node h))
    (hb : ∀ k, k ≠ g.next → (g'.node k).bare = (g.node k).bare)
    (hnew : g'.WellMade (g'.node g.next)) (h : Handle) : g'.WellMade (g'.node h) := by
  by_cases hh : h = g.next
  · rw [hh]
    exact hnew
  · exact (hg h).transfer (hb h hh) fun s hs =>
      Node.shape_of_bare (hb s (ne_next_of_lt (hwf.slots_lt hs)))

/-- The scalars that factories make are integers. -/
theorem exists_integer_of_isUniqued (hu : key.kind.isUniqued) (hs : key.kind.isVectorElement) :
    ∃ bits, key.shape = .integer bits := by
  unfold Key.kind at hu hs
  cases hshape : key.shape with
  | integer bits => exact ⟨bits, rfl⟩
  | primitive | placeholder =>
    rw [hshape] at hu
    cases hu
  | function | struct | array | vector | pointer =>
    rw [hshape] at hs
    cases hs

/-- An appended type is well made if its factory grants it. -/
theorem wellMade_grow (hm : ∀ h, g.WellMade (g.node h)) (hkey : g.Internable key)
    (hv : ∀ {bits}, key.shape = .integer bits → IntegerWidth.isValid bits)
    (ht : key.shape.trimmed = key.shape)
    (hs : ∀ {len}, key.shape = .vector len → ∀ p ∈ key.parts, (g.node p).kind.isVectorElement) :
    (g.grow key).WellMade ((g.grow key).node g.next) := by
  have hkind : ((g.grow key).node g.next).kind = key.kind := congrArg Key.kind key_grow_next
  have hshape : ((g.grow key).node g.next).shape = key.shape := congrArg Key.shape key_grow_next
  have hvector : key.kind = .vector → ∀ p ∈ key.parts, (g.node p).kind.isVectorElement := by
    unfold Key.kind
    intro hk
    cases hlen : key.shape <;> rw [hlen] at hk <;> cases hk
    exact hs hlen
  constructor
  · rw [hshape]
    exact hv
  · rw [hshape]
    exact ht
  · rw [hkind, isAbstract_grow, if_pos rfl]
    intro hk
    refine List.any_eq_false.2 fun p hp => ?_
    rcases hk with hk | hk
    · -- a scalar has no components
      obtain ⟨bits, hi⟩ := exists_integer_of_isUniqued hkey.isUniqued hk
      have htakes := hkey.takes
      rw [hi] at htakes
      rw [List.length_eq_zero_iff.1 htakes] at hp
      cases hp
    · rw [(hm p).concrete (.inl (hvector hk p hp))]
      decide
  · rw [hkind, slots_grow, if_pos rfl]
    intro hk p hp
    have hne : p ≠ g.next := ne_next_of_lt (hkey.parts p hp).1
    rw [Node.kind, Node.shape_of_bare (bare_grow_of_ne hne)]
    exact hvector hk p hp

/-- What a factory makes is well made. -/
theorem wellMade_intern (hwf : g.WellFormed) (hg : ∀ h, g.WellMade (g.node h))
    (ha : ∀ h ∈ a.handles, h.index < g.size) (hk : g.requested a = some key) (h : Handle) :
    WellMade (g.intern key).2 ((g.intern key).2.node h) := by
  cases hl : g.registry.lookup key with
  | some k =>
    rw [intern_of_lookup_some hl]
    exact hg h
  | none =>
    have hkey := internable_of_requested hwf ha hk
    obtain ⟨hparts, hgrants, htrimmed⟩ := parts_of_requested hk
    have hscalar : ∀ {len}, key.shape = .vector len → ∀ p ∈ key.parts,
        (g.node p).kind.isVectorElement := by
      intro len hs p hp
      rw [hparts] at hp
      obtain ⟨q, hq, rfl⟩ := List.mem_map.1 hp
      exact hgrants.isVectorElement hs q hq
    have hgrow := wellMade_grow hg hkey hgrants.isValid htrimmed hscalar
    rw [intern_of_lookup_none hkey hl]
    -- the new registry does not matter
    exact (wellMade_extend hwf hg (fun k => bare_grow_of_ne) hgrow h).transfer rfl fun _ _ => rfl

theorem wellMade_refine (hg : Reachable g) (hm : ∀ h, g.WellMade (g.node h))
    (hnew : new.index < g.size) (hr : g.refine old new = .ok (g', events)) (h : Handle) :
    g'.WellMade (g'.node h) := by
  have hshape := hg.shape_refine hnew hr
  by_cases hk : (g.node h).kind.isVectorElement ∨ (g.node h).kind = .vector
  · have hkeep := hg.untouched_refine_of_concrete hnew hr ((hm h).concrete hk)
    exact (hm h).transfer hkeep.bare_eq fun s _ => hshape s
  · apply wellMade_of_trimmed
    · rw [hshape]
      exact (hm h).trimmed
    · rwa [Node.kind, hshape]

theorem wellMade_scalars (h : Handle) : scalars.WellMade (scalars.node h) := by
  obtain ⟨p, hp⟩ := node_scalars h
  rw [hp]
  refine ⟨fun hs => (by cases hs), rfl, fun _ => rfl, fun hk => by cases hk⟩

theorem wellMade_initial (h : Handle) : initial.WellMade (initial.node h) := by
  have hfold : ∀ (l : List UInt32) (g : Graph), (∀ bits ∈ l, IntegerWidth.isValid bits) →
      g.Consistent [] → (∀ h, g.WellMade (g.node h)) → ∀ h,
        WellMade (l.foldl (fun g bits => (g.intern (.integer bits)).2) g)
          ((l.foldl (fun g bits => (g.intern (.integer bits)).2) g).node h) := by
    intro l
    induction l with
    | nil => exact fun _ _ _ hm => hm
    | cons bits l ih =>
      intro g hv hc hm
      obtain ⟨hbits, hl⟩ := List.forall_mem_cons.1 hv
      refine ih _ hl (hc.intern (g.internable_integer bits)) ?_
      exact wellMade_intern (a := .integer bits) hc.wellFormed hm
        (fun _ hh => absurd hh List.not_mem_nil) (if_pos hbits)
  exact hfold _ _ (by simp [IntegerWidth.isValid, IntegerWidth.least, IntegerWidth.greatest])
    consistent_scalars wellMade_scalars h

/-- **Granting.** All types of a reachable graph are as factories make them. -/
theorem Reachable.wellMade (hg : Reachable g) (h : Handle) : g.WellMade (g.node h) := by
  induction hg generalizing h with
  | initial => exact wellMade_initial h
  | @perform g a p hg ha hp ih =>
    have hwf := hg.consistent.wellFormed
    have hlisteners : ∀ {g' : Graph}, (∀ k, (g'.node k).bare = (g.node k).bare) →
        g'.WellMade (g'.node h) := fun hb =>
      (ih h).transfer (hb h) fun s _ => Node.shape_of_bare (hb s)
    cases performs_of_perform hp with
    | make hk => exact wellMade_intern hwf ih ha hk h
    | placeholder =>
      refine wellMade_extend hwf ih (fun k hk => ?_) ?_ h
      · show ((g.push _).node k).bare = _
        rw [node_push, if_neg hk]
      · show WellMade _ ((g.push _).node g.next)
        rw [node_push, if_pos rfl]
        exact wellMade_of_trimmed rfl (by decide)
    | refine hr => exact wellMade_refine hg ih (ha _ (by simp [Action.handles])) hr h
    | subscribe hs => exact hlisteners (bare_subscribe hs)
    | unsubscribe hu => exact hlisteners (bare_unsubscribe hu)
    | decline | ignore => exact ih h

/-- The factory of a derived type would grant it again, over all components that stand for its
slots. -/
theorem Reachable.grants (hg : Reachable g) (hl : g.Live h) (hu : (g.node h).kind.isUniqued)
    {parts : List Handle} (hparts : parts.map g.resolve = (g.node h).slots) :
    g.Grants (g.node h).shape parts where
  isUniqued := hu
  takes := by
    have ht := hg.consistent.wellFormed.takes hl
    rwa [← hparts, List.length_map] at ht
  isValid := (hg.wellMade h).isValid
  isVectorElement := by
    intro len hs p hp
    refine (hg.wellMade h).isVectorElement (by rw [Node.kind, hs]; rfl) (g.resolve p) ?_
    rw [← hparts]
    exact List.mem_map_of_mem hp

theorem trimmed_kind (s : Shape) : s.trimmed.kind = s.kind := by cases s <;> rfl

/-- The attributes of a function do not matter to its factory. -/
theorem Grants.of_trimmed {s : Shape} {parts : List Handle} (hg : g.Grants s.trimmed parts) :
    g.Grants s parts := by
  cases s with
  | function => exact ⟨rfl, hg.takes, fun hs => (by cases hs), fun hs => (by cases hs)⟩
  | _ => exact hg

/-- A derived type can be asked for by a factory call over all components that stand for its
slots. -/
theorem Reachable.exists_call (hg : Reachable g) (hl : g.Live h)
    (hu : (g.node h).kind.isUniqued) {s : Shape} (hs : (g.node h).shape = s.trimmed)
    {parts : List Handle} (hparts : parts.map g.resolve = (g.node h).slots) :
    ∃ a, s.call? parts = some a ∧ a.handles = parts ∧ g.requested a = some (g.node h).key := by
  have hgrants : g.Grants s.trimmed parts := hs ▸ hg.grants hl hu hparts
  obtain ⟨a, hcall, hhandles, hrequested⟩ := hgrants.of_trimmed.exists_call
  refine ⟨a, hcall, hhandles, ?_⟩
  rw [hrequested, hparts, ← hs]
  rfl

end TypeGraph.Graph
