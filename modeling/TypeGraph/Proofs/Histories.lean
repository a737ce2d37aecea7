import Mathlib.Data.List.Permutation
import TypeGraph.History
import TypeGraph.Proofs.Interning

/-!
# Histories of consistent graphs

An action makes a type of a key, adds a placeholder, refines a type, or touches nothing but
listeners, which it subscribes or cancels. So what the scalars have, and these effects keep, every
reachable graph has. `Reachable.consistent`: reachable graphs are consistent with the empty agenda.
-/

namespace TypeGraph.Graph

/-- What one action can do to a graph. -/
inductive Effect (g : Graph) : Graph → Prop where
  | intern {key : Key} (hk : g.Internable key) : Effect g (g.intern key).2
  | placeholder : Effect g g.placeholder.2
  | refine {old new : Handle} {g' : Graph} {events : List Event} (hnew : new.index < g.size)
      (hr : g.refine old new = .ok (g', events)) : Effect g g'
  | subscribe {ty : Handle} {id : ListenerId} {g' : Graph} (hs : g.subscribe ty = some (id, g')) :
      Effect g g'
  | unsubscribe {id : ListenerId} {g' : Graph} (hu : g.unsubscribe id = some g') : Effect g g'
  /-- There was nothing to subscribe to, or to cancel. -/
  | nothing : Effect g g

/-- What one action can do to a graph, listeners aside. -/
inductive Changes (g : Graph) : Graph → Prop where
  | intern {key : Key} (hk : g.Internable key) : Changes g (g.intern key).2
  | placeholder : Changes g g.placeholder.2
  | refine {old new : Handle} {g' : Graph} {events : List Event} (hnew : new.index < g.size)
      (hr : g.refine old new = .ok (g', events)) : Changes g g'
  | listeners {g' : Graph} (hs : g'.size = g.size) (hr : g'.registry = g.registry)
      (hb : ∀ k, (g'.node k).bare = (g.node k).bare)
      (ho : ∀ k, (g'.node k).owners = (g.node k).owners) : Changes g g'

variable {g g' : Graph} {agenda : List Task}

theorem live_parts (hg : g.WellFormed) {l : List Handle} (hl : ∀ h ∈ l, h.index < g.size) :
    ∀ p ∈ l.map g.resolve, p.index < g.size ∧ g.Live p := by
  intro p hp
  obtain ⟨h, hh, rfl⟩ := List.mem_map.1 hp
  exact ⟨hg.resolve_lt (hl h hh), hg.live_resolve h⟩

theorem bare_subscribe {ty : Handle} {id : ListenerId} (hs : g.subscribe ty = some (id, g'))
    (k : Handle) : (g'.node k).bare = (g.node k).bare := by
  unfold subscribe at hs
  simp only at hs
  split at hs
  · cases hs
    exact bare_watch _ _ k _
  · cases hs

theorem bare_unsubscribe {id : ListenerId} (hu : g.unsubscribe id = some g') (k : Handle) :
    (g'.node k).bare = (g.node k).bare := by
  unfold unsubscribe at hu
  obtain ⟨ty, _, rfl⟩ := Option.map_eq_some_iff.1 hu
  exact bare_unwatch _ _ k _

theorem changes_of_subscribe {ty : Handle} {id : ListenerId} (hs : g.subscribe ty = some (id, g')) :
    Changes g g' := by
  have hb := bare_subscribe hs
  unfold subscribe at hs
  simp only at hs
  split at hs
  · cases hs
    exact .listeners (size_update _ _ _) rfl hb fun k => owners_watch _ _ k _
  · cases hs

theorem changes_of_unsubscribe {id : ListenerId} (hu : g.unsubscribe id = some g') :
    Changes g g' := by
  have hb := bare_unsubscribe hu
  unfold unsubscribe at hu
  obtain ⟨ty, _, rfl⟩ := Option.map_eq_some_iff.1 hu
  exact .listeners (size_update _ _ _) rfl hb fun k => owners_unwatch _ _ k _

/-- An action on types of a well-formed graph has one of the six effects. -/
theorem effect_of_perform {a : Action} {p : Performed} (hg : g.WellFormed)
    (ha : ∀ h ∈ a.handles, h.index < g.size) (hp : g.perform a = .ok p) : Effect g p.graph := by
  cases a with
  | integer bits =>
    rw [perform, Graph.integer] at hp
    split at hp
    · cases hp
      exact .intern (g.internable_integer bits)
    · cases hp
  | function ret params varargs attrs =>
    cases hp
    refine .intern ⟨rfl, Nat.le_add_left 1 _, ?_⟩
    exact live_parts (l := ret :: params) hg ha
  | struct fields packed =>
    cases hp
    exact .intern ⟨rfl, trivial, live_parts hg ha⟩
  | array elem len =>
    cases hp
    exact .intern ⟨rfl, rfl, live_parts (l := [elem]) hg ha⟩
  | vector elem len =>
    rw [perform, Graph.vector] at hp
    split at hp
    · cases hp
      exact .intern ⟨rfl, rfl, live_parts (l := [elem]) hg ha⟩
    · cases hp
  | pointer elem =>
    cases hp
    exact .intern ⟨rfl, rfl, live_parts (l := [elem]) hg ha⟩
  | placeholder =>
    cases hp
    exact .placeholder
  | refine old new =>
    rw [perform] at hp
    split at hp
    · next g' events hr =>
      cases hp
      exact .refine (ha new (by simp [Action.handles])) hr
    · cases hp
  | subscribe ty =>
    rw [perform] at hp
    split at hp
    · next id g' hs =>
      cases hp
      exact .subscribe hs
    · cases hp
      exact .nothing
  | unsubscribe id =>
    rw [perform] at hp
    split at hp
    · next g' hu =>
      cases hp
      exact .unsubscribe hu
    · cases hp
      exact .nothing

theorem Effect.changes (hx : Effect g g') : Changes g g' := by
  cases hx with
  | intern hk => exact .intern hk
  | placeholder => exact .placeholder
  | refine hnew hr => exact .refine hnew hr
  | subscribe hs => exact changes_of_subscribe hs
  | unsubscribe hu => exact changes_of_unsubscribe hu
  | nothing => exact .listeners rfl rfl (fun _ => rfl) fun _ => rfl

theorem Consistent.begin {old new : Handle} (hc : g.Consistent []) (hr : g.Refinable old new)
    (hlt : new.index < g.size) : (g.begin old new).Consistent [g.settling old new] :=
  hc.toPoised.begin hr hlt fun _ hl hu => hc.holds hl hu

/-- What holds once the type is retired, and is kept by each advance of a consistent graph, holds
at the end of a refinement. -/
theorem Consistent.refine_induction {P : Graph → List Task → Prop} {old new : Handle}
    {events : List Event} (hc : g.Consistent []) (hlt : new.index < g.size)
    (h : g.refine old new = .ok (g', events))
    (hbegin : g.Refinable old new → P (g.begin old new) [g.settling old new])
    (hstep : ∀ {g agenda events g' agenda'}, g.Consistent agenda → P g agenda →
      Advance g agenda events g' agenda' → P g' agenda') :
    g'.Consistent [] ∧ P g' [] :=
  Graph.refine_induction (P := fun g agenda _ => g.Consistent agenda ∧ P g agenda) h
    (fun hr => ⟨hc.begin hr hlt, hbegin hr⟩)
    fun hP ha => ⟨ha.consistent hP.1, hstep hP.1 hP.2 ha⟩

theorem Changes.consistent (hx : Changes g g') (hc : g.Consistent []) : g'.Consistent [] := by
  cases hx with
  | intern hk => exact hc.intern hk
  | placeholder => exact hc.placeholder
  | refine hlt hr =>
    exact (hc.refine_induction (P := fun _ _ => True) hlt hr (fun _ => trivial)
      fun _ _ _ => trivial).1
  | listeners hs hr hb ho => exact hc.congr hs hr hb ho

/-- **Consistency.** Reachable graphs are consistent. -/
theorem Reachable.consistent (hg : Reachable g) : g.Consistent [] := by
  induction hg with
  | initial => exact consistent_initial
  | perform _ ha hp ih => exact (effect_of_perform ih.wellFormed ha hp).changes.consistent ih

/-- What the scalars have, and each effect on a consistent graph keeps, every reachable graph
has. -/
theorem Reachable.effect_induction {P : Graph → Prop} (hg : Reachable g) (h0 : P scalars)
    (hstep : ∀ {g g'}, g.Consistent [] → P g → Effect g g' → P g') : P g := by
  -- the built-in integers are made from the scalars by the factory of integers
  have hfold : ∀ (l : List UInt32) (g : Graph), g.Consistent [] → P g →
      P (l.foldl (fun g bits => (g.intern (.integer bits)).2) g) := by
    intro l
    induction l with
    | nil => exact fun _ _ hP => hP
    | cons bits l ih =>
      intro g hc hP
      have hx : Effect g (g.intern (.integer bits)).2 := .intern (g.internable_integer bits)
      exact ih _ (hx.changes.consistent hc) (hstep hc hP hx)
  induction hg with
  | initial => exact hfold _ _ consistent_scalars h0
  | perform hg ha hp ih =>
    exact hstep hg.consistent ih (effect_of_perform hg.consistent.wellFormed ha hp)

/-- What the scalars have, and each change of a consistent graph keeps, every reachable graph
has. -/
theorem Reachable.change_induction {P : Graph → Prop} (hg : Reachable g) (h0 : P scalars)
    (hstep : ∀ {g g'}, g.Consistent [] → P g → Changes g g' → P g') : P g :=
  hg.effect_induction h0 fun hc hP hx => hstep hc hP hx.changes

/-! ## Playing a script -/

/-- The graph after a script of actions on existing handles, if all of them succeed. -/
def play (g : Graph) : List Action → Option Graph
  | [] => some g
  | a :: script =>
    if a.handles.all fun h => h.index < g.size then
      match g.perform a with
      | .ok p => p.graph.play script
      | .error _ => none
    else
      none

/-- What is reachable leads to what is reachable. -/
theorem Leads.reachable (hl : Leads g g') (hg : Reachable g) : Reachable g' := by
  induction hl with
  | refl => exact hg
  | perform _ ha hp ih => exact ih.perform ha hp

theorem Leads.trans {g'' : Graph} (hl : Leads g g') (hl' : Leads g' g'') : Leads g g'' := by
  induction hl' with
  | refl => exact hl
  | perform _ ha hp ih => exact ih.perform ha hp

theorem leads_of_play {script : List Action} (h : g.play script = some g') : Leads g g' := by
  induction script generalizing g with
  | nil =>
    cases h
    exact .refl
  | cons a script ih =>
    unfold Graph.play at h
    split at h
    · next ha =>
      split at h
      · next p hp => exact (Leads.refl.perform (by simpa using ha) hp).trans (ih h)
      · cases h
    · cases h

/-- What a script computes of an outcome is about an action that succeeds. -/
theorem eq_ok_of_toOption {ε α : Type} {x : Except ε α} {a : α} (h : x.toOption = some a) :
    x = .ok a := by
  cases x with
  | error e => cases h
  | ok b =>
    cases h
    rfl

theorem Reachable.play {script : List Action} (hg : Reachable g) (h : g.play script = some g') :
    Reachable g' := (leads_of_play h).reachable hg

end TypeGraph.Graph
