import TypeGraph.Proofs.Growth
import TypeGraph.Proofs.Telling

/-!
# The story that a listener hears

Refinements tell a listener what it is due to hear, and no other action tells anybody anything. So a
script does: whatever comes after a subscription, its listener hears the story of its type up to
there, and nothing more once the subscription is cancelled.

1. `Reachable.after_cases`: an action refines a type, or is quiet and has nothing to tell.
2. `Reachable.heardAll_eq`: what the actions of a script tell is what it delivers.
3. `Telling.afterAll`: a script tells a listener what it is due to hear.
4. `Cancelled.silent`: a script tells nothing to a listener that was taken back.
-/

namespace TypeGraph.Graph

variable {g g' : Graph} {h old new start target : Handle} {id : ListenerId}
  {told : List Delivery}

/-! ## Actions -/

theorem subscriptions_intern {key : Key} (hk : g.Internable key) :
    (g.intern key).2.subscriptions = g.subscriptions := by
  cases hl : g.registry.lookup key with
  | some h => rw [intern_of_lookup_some hl]
  | none =>
    rw [intern_of_lookup_none hk hl]
    exact subscriptions_grow key

/-- A misused refinement has nothing to tell. -/
theorem Misused.deliveries_eq {f : Fault} (hm : Misused g (.refine old new) (.fault f)) :
    g.deliveries [.refine old new] = [] := by
  have hstep : g.step (.refine old new) = ⟨g, [.abort f], []⟩ := hm.refineStep_eq
  rw [deliveries_cons rfl, hstep]
  show [] ++ g.deliveries [.abort f] = []
  rw [deliveries]
  rfl

/-- Types and subscriptions are added, and subscriptions track what they did, unless the action
cancels them. -/
structure Quiet (g g' : Graph) (a : Action) : Prop where
  extended : g.Extends g'
  size_subscriptions_le : g.subscriptions.size ≤ g'.subscriptions.size
  tracked?_eq : ∀ {id}, id.index < g.subscriptions.size →
    a ≠ .unsubscribe id ∨ g.tracked? id = none → g'.tracked? id = g.tracked? id

theorem quiet_refl (g : Graph) (a : Action) : Quiet g g a :=
  ⟨.refl g, Nat.le_refl _, fun _ _ => rfl⟩

/-- Who subscribes gets the next number, and a type that is abstract. -/
theorem subscribe_eq_some {ty : Handle} (hs : g.subscribe ty = some (id, g')) :
    (g.node (g.resolve (g.resolve ty))).isAbstract ∧ id = ⟨g.subscriptions.size⟩ ∧
      g'.subscriptions.size = g.subscriptions.size + 1 := by
  unfold subscribe at hs
  simp only at hs
  split at hs
  · next ha =>
    cases hs
    exact ⟨ha, rfl, Array.size_push _⟩
  · cases hs

theorem unsubscribe_eq_some (hu : g.unsubscribe id = some g') :
    (g.tracked? id).isSome ∧ g'.subscriptions.size = g.subscriptions.size := by
  unfold unsubscribe at hu
  obtain ⟨ty, ht, rfl⟩ := Option.map_eq_some_iff.1 hu
  exact ⟨by rw [ht]; rfl, size_subscriptions_track ..⟩

theorem Performs.quiet {a : Action} {p : Performed} (hp : g.Performs a p) (hwf : g.WellFormed)
    (ha : ∀ h ∈ a.handles, h.index < g.size) (hr : ∀ old new, a ≠ .refine old new) :
    Quiet g p.graph a := by
  refine ⟨hp.extends hwf ha hr, ?_, fun {id} hid hne => ?_⟩
  · cases hp with
    | make hk =>
      have hsub := subscriptions_intern (internable_of_requested hwf ha hk)
      exact (congrArg Array.size hsub).ge
    | placeholder | decline | ignore => exact Nat.le_refl _
    | refine => exact absurd rfl (hr _ _)
    | subscribe hs => exact (Nat.le_succ _).trans_eq (subscribe_eq_some hs).2.2.symm
    | unsubscribe hu => exact (unsubscribe_eq_some hu).2.ge
  · cases hp with
    | make hk => exact tracked?_intern (internable_of_requested hwf ha hk) id
    | placeholder | decline | ignore => rfl
    | refine => exact absurd rfl (hr _ _)
    | @subscribe ty new g' hs =>
      rw [tracked?_subscribe hs, if_neg]
      rintro rfl
      rw [(subscribe_eq_some hs).2.1] at hid
      exact Nat.lt_irrefl _ hid
    | @unsubscribe a g' hu =>
      rw [tracked?_unsubscribe hu, if_neg]
      rintro rfl
      -- there was nothing to cancel if it tracked nothing
      have hsome := (unsubscribe_eq_some hu).1
      rw [hne.resolve_left fun h => h rfl] at hsome
      cases hsome

/-- An action on a reachable graph refines a type, or is quiet and has nothing to tell. -/
theorem Reachable.after_cases {a : Action} (hg : Reachable g)
    (ha : ∀ h ∈ a.handles, h.index < g.size) :
    (∃ old new out, a = .refine old new ∧ new.index < g.size ∧ g.refine old new = .ok out ∧
      g.after a = out.1) ∨
    Quiet g (g.after a) a ∧ g.delivered a = [] := by
  by_cases hr : ∃ old new, a = .refine old new
  · obtain ⟨old, new, rfl⟩ := hr
    have hlt : new.index < g.size := ha new (by simp [Action.handles])
    cases h : g.refine old new with
    | ok out =>
      refine .inl ⟨old, new, out, rfl, hlt, h, ?_⟩
      rw [Graph.after, Graph.perform, h]
    | error f =>
      have hafter : g.after (.refine old new) = g := by rw [Graph.after, Graph.perform, h]
      rw [hafter]
      exact .inr ⟨quiet_refl g _, ((hg.refine_eq_error_iff hlt).1 h).deliveries_eq⟩
  · have hr' : ∀ old new, a ≠ .refine old new := fun old new heq => hr ⟨old, new, heq⟩
    refine .inr ⟨?_, ?_⟩
    · cases h : g.perform a with
      | ok p =>
        rw [after_of_perform h]
        exact (performs_of_perform h).quiet hg.consistent.wellFormed ha hr'
      | error e =>
        rw [Graph.after, h]
        exact quiet_refl g a
    · cases a with
      | refine old new => exact absurd rfl (hr' old new)
      | _ => rfl

/-- An action tells listeners the events that it delivers, and nothing if it fails. -/
theorem Reachable.heard_eq {a : Action} (hg : Reachable g)
    (ha : ∀ h ∈ a.handles, h.index < g.size) :
    g.heard a = (g.delivered a).map Delivery.event := by
  cases hp : g.perform a with
  | ok p => rw [heard_of_perform hp, map_event_delivered hp]
  | error e =>
    rcases hg.after_cases ha with ⟨old, new, out, rfl, hlt, h, hafter⟩ | ⟨hq, htold⟩
    · rw [Graph.perform, h] at hp
      cases hp
    · rw [heard, hp, htold]
      rfl

/-- What is told stays so through an action that has nothing to tell. -/
theorem Telling.quiet {a : Action} (ht : Telling g [] id start target told) (hq : Quiet g g' a)
    (hwf : g.WellFormed) (hwf' : g'.WellFormed) (hw : g.WatchersCounted)
    (hne : a ≠ .unsubscribe id) : Telling g' [] id start target told := by
  have hlt := hw.tracked_lt ht.tracked
  refine ht.congr hq.extended.size_le
    (hq.tracked?_eq (lt_of_tracked? ht.tracked) (.inl hne)) ?_
    (isConcrete_of_bare (hq.extended.untouched hlt).bare_eq) rfl
  rw [hq.extended.resolve_eq hwf hwf' ht.start_lt, hq.extended.resolve_eq hwf hwf' hlt,
    ht.resolve_eq]

theorem Telling.after {a : Action} (ht : Telling g [] id start target told) (hg : Reachable g)
    (ha : ∀ h ∈ a.handles, h.index < g.size) (hne : a ≠ .unsubscribe id) :
    ∃ target', Telling (g.after a) [] id start target' (told ++ toListener id (g.delivered a)) := by
  rcases hg.after_cases ha with ⟨old, new, out, rfl, hlt, h, hafter⟩ | ⟨hq, htold⟩
  · rw [hafter]
    exact hg.telling_refine hlt h ht
  · rw [htold, toListener_nil, List.append_nil]
    exact ⟨target, ht.quiet hq hg.consistent.wellFormed (hg.after ha).consistent.wellFormed
      hg.attended.watchers hne⟩

theorem Cancelled.after {a : Action} (hu : g.Cancelled id) (hg : Reachable g)
    (ha : ∀ h ∈ a.handles, h.index < g.size) :
    (g.after a).Cancelled id ∧ toListener id (g.delivered a) = [] := by
  rcases hg.after_cases ha with ⟨old, new, out, rfl, hlt, h, hafter⟩ | ⟨hq, htold⟩
  · rw [hafter]
    exact hg.cancelled_refine hlt h hu
  · rw [htold]
    exact ⟨⟨hu.lt.trans_le hq.size_subscriptions_le,
      (hq.tracked?_eq hu.lt (.inr hu.tracked)).trans hu.tracked⟩, rfl⟩

/-! ## Scripts -/

variable {script : List Action}

/-- **Telling.** A script that does not cancel the subscription tells its listener all that it is
due to hear. -/
theorem Telling.afterAll (ht : Telling g [] id start target told) (hg : Reachable g)
    (hs : g.admits script) (hun : .unsubscribe id ∉ script) :
    ∃ target', Telling (g.afterAll script) [] id start target'
      (told ++ toListener id (g.deliveredAll script)) := by
  induction script generalizing g target told with
  | nil =>
    rw [deliveredAll, toListener_nil, List.append_nil]
    exact ⟨target, ht⟩
  | cons a script ih =>
    obtain ⟨ha, hs⟩ := admits_cons.1 hs
    rw [List.mem_cons, not_or] at hun
    obtain ⟨target', ht'⟩ := ht.after hg ha (Ne.symm hun.1)
    rw [deliveredAll, toListener_append, ← List.append_assoc]
    exact ih ht' (hg.after ha) hs hun.2

theorem Cancelled.afterAll (hu : g.Cancelled id) (hg : Reachable g) (hs : g.admits script) :
    (g.afterAll script).Cancelled id ∧ toListener id (g.deliveredAll script) = [] := by
  induction script generalizing g with
  | nil => exact ⟨hu, rfl⟩
  | cons a script ih =>
    obtain ⟨ha, hs⟩ := admits_cons.1 hs
    obtain ⟨hu', hnone⟩ := hu.after hg ha
    obtain ⟨hend, hrest⟩ := ih hu' (hg.after ha) hs
    exact ⟨hend, by rw [deliveredAll, toListener_append, hnone, hrest, List.append_nil]⟩

/-- What a script tells is what it delivers. -/
theorem Reachable.heardAll_eq (hg : Reachable g) (hs : g.admits script) :
    g.heardAll script = (g.deliveredAll script).map Delivery.event := by
  induction script generalizing g with
  | nil => rfl
  | cons a script ih =>
    obtain ⟨ha, hs⟩ := admits_cons.1 hs
    rw [heardAll, deliveredAll, List.map_append, hg.heard_eq ha, ih (hg.after ha) hs]

/-! ## The story -/

/-- What a listener that subscribed to `start` heard, up to now. -/
structure Story (g : Graph) (id : ListenerId) (start target : Handle) (told : List Delivery) :
    Prop where
  /-- It heard of each replacement of its type, one after the other, and possibly last that its type
  became concrete. -/
  follows : Follows id start (told.map Delivery.event) target
  /-- Nothing came after it heard of a concrete type. -/
  ends : told.Pairwise fun d _ => d.isFinal = false
  /-- Its type is the one that it was told of last, and stands for the one that it subscribed to. -/
  target?_eq : g.target? id = some target
  resolve_eq : g.resolve start = target
  /-- It is counted as an observer of its type just while that is abstract. -/
  count_watchers : (g.node target).watchers.count id = if (g.node target).isAbstract then 1 else 0
  /-- It heard of a concrete type once if its type is concrete, and never if not. -/
  countP_isFinal : told.countP Delivery.isFinal = if (g.node target).isAbstract then 0 else 1

/-- Whatever comes next, the listener hears nothing and its subscription is not there to cancel. -/
def Silent (g : Graph) (id : ListenerId) : Prop :=
  ∀ script, g.admits script → toListener id (g.deliveredAll script) = [] ∧
    (∀ e ∈ g.heardAll script, e.listener ≠ id) ∧
    (g.afterAll script).target? id = none ∧
    (g.afterAll script).answer (.unsubscribe id) = .ok (.unsubscribed false)

theorem Telling.story (ht : Telling g [] id start target told) (hg : Reachable g) :
    g.Story id start target told := by
  have hlive : g.Live target := hg.attended.live_of_tracked ht.tracked
  have hstage := ht.stage
  rw [isConcrete_of_live hlive] at hstage
  refine ⟨ht.follows, hstage.pairwise, ?_, ht.resolve_eq.trans hlive.resolve_eq, ?_, ?_⟩
  · unfold target?
    rw [ht.tracked, Option.map_some, hlive.resolve_eq]
  · have hw := hg.attended.watchers
    cases habs : (g.node target).isAbstract with
    | true => rw [hw.count_eq id (.inl habs), if_pos ht.tracked, if_pos rfl]
    | false =>
      rw [hw.nil hlive habs]
      rfl
  · rw [hstage.countP_isFinal]
    cases (g.node target).isAbstract <;> rfl

theorem answer_unsubscribe (g : Graph) (id : ListenerId) :
    g.answer (.unsubscribe id) = .ok (.unsubscribed (g.tracked? id).isSome) := by
  rw [answer, Graph.perform, unsubscribe]
  cases g.tracked? id <;> rfl

theorem Cancelled.silent (hu : g.Cancelled id) (hg : Reachable g) : g.Silent id := by
  intro script hs
  obtain ⟨hend, hnone⟩ := hu.afterAll hg hs
  refine ⟨hnone, ?_, ?_, ?_⟩
  · rw [hg.heardAll_eq hs]
    refine List.forall_mem_map.2 fun d hd hid => ?_
    exact List.filter_eq_nil_iff.1 hnone d hd (decide_eq_true hid)
  · unfold target?
    rw [hend.tracked]
    rfl
  · rw [answer_unsubscribe, hend.tracked]
    rfl

theorem cancelled_unsubscribe (ht : g.tracked? id = some target) :
    (g.after (.unsubscribe id)).Cancelled id := by
  have hu : g.unsubscribe id = some ((g.track id none).unwatch id target) := by
    unfold unsubscribe
    rw [ht]
    rfl
  have hafter : g.after (.unsubscribe id) = (g.track id none).unwatch id target := by
    rw [Graph.after, Graph.perform, hu]
  rw [hafter]
  refine ⟨(lt_of_tracked? ht).trans_eq (size_subscriptions_track ..).symm, ?_⟩
  rw [tracked?_unsubscribe hu, if_pos rfl]

theorem Reachable.subscribe {ty : Handle} (hg : Reachable g) (hs : g.subscribe ty = some (id, g')) :
    Reachable g' := by
  have habs := (subscribe_eq_some hs).1
  have hlt : ty.index < g.size := by
    -- past the arena no type is abstract
    by_contra hb
    have hlive : g.Live ty := by
      unfold Live
      rw [node_of_size_le (Nat.le_of_not_lt hb)]
      rfl
    rw [hlive.resolve_eq, hlive.resolve_eq, node_of_size_le (Nat.le_of_not_lt hb)] at habs
    cases habs
  refine hg.perform (a := .subscribe ty) (p := ⟨g', .subscribed (some id), []⟩) ?_ ?_
  · simpa [Action.handles] using hlt
  · rw [Graph.perform, hs]

/-- Who has just subscribed has heard nothing so far. -/
theorem Reachable.telling_subscribe {ty : Handle} (hg : Reachable g)
    (hs : g.subscribe ty = some (id, g')) : Telling g' [] id (g.resolve ty) (g.resolve ty) [] := by
  have hlive := hg.consistent.wellFormed.live_resolve ty
  have habs := (subscribe_eq_some hs).1
  rw [hlive.resolve_eq] at habs
  have hx := extends_subscribe hs
  have hlt := WellFormed.lt_of_isAbstract habs
  refine ⟨hlt.trans_le hx.size_le, ?_, rfl, .silent _, fun d hd => absurd hd List.not_mem_nil, ?_⟩
  · rw [tracked?_subscribe hs, if_pos rfl]
  · rw [isConcrete_of_bare (hx.untouched hlt).bare_eq, isConcrete_of_isAbstract habs]
    exact .waiting fun d hd => absurd hd List.not_mem_nil

/-- **The story of a listener.** Whatever follows a subscription, short of cancelling it, the events
that the actions tell are those that are delivered, and of them the listener hears each replacement
of its type and then once that it is concrete. The subscription can be cancelled once, and nothing
is heard after that. -/
theorem Reachable.hears_story {ty : Handle} (hg : Reachable g) (hs : g.subscribe ty = some (id, g'))
    (ha : g'.admits script) (hun : .unsubscribe id ∉ script) :
    g'.heardAll script = (g'.deliveredAll script).map Delivery.event ∧
    (∃ target, (g'.afterAll script).Story id (g.resolve ty) target
      (toListener id (g'.deliveredAll script))) ∧
    (g'.afterAll script).answer (.unsubscribe id) = .ok (.unsubscribed true) ∧
    ((g'.afterAll script).after (.unsubscribe id)).Silent id := by
  have hg' := hg.subscribe hs
  obtain ⟨target, ht⟩ := (hg.telling_subscribe hs).afterAll hg' ha hun
  have hend := hg'.afterAll ha
  refine ⟨hg'.heardAll_eq ha, ⟨target, ht.story hend⟩, ?_, ?_⟩
  · rw [answer_unsubscribe, ht.tracked]
    rfl
  · exact (cancelled_unsubscribe ht.tracked).silent (hend.after (by simp [Action.handles]))

set_option maxRecDepth 10000 in
/-- A listener on a pointer that is merged into another one, which then becomes concrete. It hears
nothing of a listener on the placeholder, which is told by a last replacement. -/
theorem hears_story_pointers : ∃ g g', initial.play
    [.placeholder, .placeholder, .pointer ⟨9⟩, .pointer ⟨10⟩] = some g ∧
    g.subscribe ⟨11⟩ = some (⟨0⟩, g') ∧
    g'.deliveredAll [.subscribe ⟨9⟩, .refine ⟨9⟩ ⟨10⟩, .refine ⟨10⟩ .i32] =
      [⟨.refined ⟨0⟩ ⟨11⟩ ⟨12⟩, false⟩, ⟨.refined ⟨1⟩ ⟨9⟩ ⟨10⟩, false⟩,
        ⟨.concrete ⟨0⟩ ⟨12⟩, true⟩, ⟨.refined ⟨1⟩ ⟨10⟩ .i32, true⟩] ∧
    g'.heardAll [.subscribe ⟨9⟩, .refine ⟨9⟩ ⟨10⟩, .refine ⟨10⟩ .i32] =
      [.refined ⟨0⟩ ⟨11⟩ ⟨12⟩, .refined ⟨1⟩ ⟨9⟩ ⟨10⟩, .concrete ⟨0⟩ ⟨12⟩, .refined ⟨1⟩ ⟨10⟩ .i32] ∧
    (∃ target, (g'.afterAll [.subscribe ⟨9⟩, .refine ⟨9⟩ ⟨10⟩, .refine ⟨10⟩ .i32]).Story ⟨0⟩ ⟨11⟩
      target [⟨.refined ⟨0⟩ ⟨11⟩ ⟨12⟩, false⟩, ⟨.concrete ⟨0⟩ ⟨12⟩, true⟩]) := by
  have h : ((initial.play [.placeholder, .placeholder, .pointer ⟨9⟩, .pointer ⟨10⟩]).bind fun g =>
      (g.subscribe ⟨11⟩).map fun made => (made, made.1, g.resolve ⟨11⟩,
        made.2.admits [.subscribe ⟨9⟩, .refine ⟨9⟩ ⟨10⟩, .refine ⟨10⟩ .i32],
        made.2.deliveredAll [.subscribe ⟨9⟩, .refine ⟨9⟩ ⟨10⟩, .refine ⟨10⟩ .i32])).map Prod.snd =
      some (⟨0⟩, ⟨11⟩, true,
        [⟨.refined ⟨0⟩ ⟨11⟩ ⟨12⟩, false⟩, ⟨.refined ⟨1⟩ ⟨9⟩ ⟨10⟩, false⟩,
          ⟨.concrete ⟨0⟩ ⟨12⟩, true⟩, ⟨.refined ⟨1⟩ ⟨10⟩ .i32, true⟩]) := by cbv
  obtain ⟨made, hmade, heq⟩ := Option.map_eq_some_iff.1 h
  obtain ⟨g, hg, hsome⟩ := Option.bind_eq_some_iff.1 hmade
  obtain ⟨⟨id, g'⟩, hs, rfl⟩ := Option.map_eq_some_iff.1 hsome
  simp only [Prod.mk.injEq] at heq
  obtain ⟨rfl, hstart, hadmits, htold⟩ := heq
  obtain ⟨hheard, hstory, -⟩ := (Reachable.initial.play hg).hears_story hs hadmits (by decide)
  rw [htold] at hheard
  rw [hstart, htold] at hstory
  exact ⟨g, g', hg, hs, htold, hheard, hstory⟩

end TypeGraph.Graph
