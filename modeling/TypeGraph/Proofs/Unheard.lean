import Mathlib
import TypeGraph.Script
import TypeGraph.Proofs.Safety

/-!
# Listeners never influence types

`unheard` takes all listeners out of a graph and leaves types, owners and the registry. Nothing that
makes or refines types can tell the difference.

1. Each single change commutes with `unheard`.
2. An agenda from which the listeners are taken runs alike: a task that tells an owner does the same
   to both graphs, and one that tells a listener does nothing to the graph without listeners
   (`step_mute`). Listeners do count when a replaced type is left, but by then none is
   there (`Sound.run_unheard`).
3. So each action but `subscribe` and `unsubscribe` has the same answer and the same effect on
   types, and those two have none (`Reachable.record_unheard`).
-/

namespace TypeGraph

/-- The node without its listeners. -/
def Node.unheard (n : Node) : Node := { n with watchers := [] }

/-- Whether the observer is the owner of a slot. -/
def Observer.isOwner : Observer → Bool
  | owner _ => true
  | listener _ => false

/-- The task without the listeners that it would tell. -/
def Task.mute : Task → Task
  | refine old new => refine old new
  | settle old new pending => settle old new (pending.filter Observer.isOwner)
  | announce ty pending => announce ty (pending.filter Observer.isOwner)
  | abort f => abort f

/-- The graph without any listeners. -/
def Graph.unheard (g : Graph) : Graph := ⟨g.nodes.map Node.unheard, g.registry, #[]⟩

/-- The outcome of an action without any listeners. -/
def Performed.unheard (p : Performed) : Performed := ⟨p.graph.unheard, p.reply, []⟩

namespace Graph

/-- What a script shows, listeners aside: for each action that is not about listeners the answer and
the graph after it. -/
def record (g : Graph) : List Action → List (Except Failure Reply × Graph)
  | [] => []
  | a :: script =>
    if a.isListening then (g.after a).record script
    else (g.answer a, (g.after a).unheard) :: (g.after a).record script

/-! ## Single changes -/

variable {g : Graph} {h k old new owner : Handle} {f u : Node → Node}

@[simp] theorem node_unheard (g : Graph) (h : Handle) : g.unheard.node h = (g.node h).unheard := by
  unfold node unheard
  rw [Array.getElem?_map]
  cases g.nodes[h.index]? <;> rfl

@[simp] theorem size_unheard (g : Graph) : g.unheard.size = g.size := Array.size_map

@[simp] theorem unheard_unheard (g : Graph) : g.unheard.unheard = g.unheard := by
  unfold unheard
  rw [Array.map_map]
  rfl

@[simp] theorem resolve_unheard (g : Graph) (h : Handle) : g.unheard.resolve h = g.resolve h :=
  resolve_congr g.size_unheard (fun k => by rw [node_unheard]; rfl) h

theorem unheard_update (hf : ∀ n, (f n).unheard = u n.unheard) :
    (g.update h f).unheard = g.unheard.update h u := by
  unfold unheard update
  congr 1
  refine Array.ext (by simp) fun i hi hi' => ?_
  simp only [Array.getElem_map, Array.getElem_modify]
  split
  · exact hf _
  · rfl

theorem unheard_foldl {α : Type} {change : Graph → α → Graph}
    (hc : ∀ g a, (change g a).unheard = change g.unheard a) (l : List α) (g : Graph) :
    (l.foldl change g).unheard = l.foldl change g.unheard :=
  (List.foldl_hom unheard fun g a => (hc g a).symm).symm

theorem unheard_acquire (g : Graph) (owner target : Handle) :
    (g.acquire owner target).unheard = g.unheard.acquire owner target := by
  refine unheard_update fun n => ?_
  show _ = if n.isObservable then _ else _
  split <;> rfl

theorem unheard_release (g : Graph) (owner target : Handle) :
    (g.release owner target).unheard = g.unheard.release owner target :=
  unheard_update fun _ => rfl

theorem update_id (g : Graph) (h : Handle) : g.update h id = g := by
  unfold update
  congr 1
  exact Array.ext (by simp) fun i hi hi' => by simp [Array.getElem_modify]

/-- A change that only listeners can see. -/
theorem unheard_update_self (hf : ∀ n, (f n).unheard = n.unheard) :
    (g.update h f).unheard = g.unheard :=
  (unheard_update (u := id) hf).trans (g.unheard.update_id h)

theorem unheard_watch (g : Graph) (id : ListenerId) (target : Handle) :
    (g.watch id target).unheard = g.unheard :=
  unheard_update_self fun n => by split <;> rfl

theorem unheard_unwatch (g : Graph) (id : ListenerId) (target : Handle) :
    (g.unwatch id target).unheard = g.unheard :=
  unheard_update_self fun _ => rfl

theorem unheard_retire (g : Graph) (old new : Handle) :
    (g.retire old new).unheard = g.unheard.retire old new := by
  unfold retire
  simp only
  rw [unheard_foldl (fun g s => g.unheard_release old s), node_unheard]
  congr 1
  exact congrArg (fun g : Graph => { g with registry := g.registry.remove old })
    (unheard_update (g := g) (h := old)
      (f := fun n => { n with slots := [], isAbstract := false, forward := some new })
      (u := fun n => { n with slots := [], isAbstract := false, forward := some new })
      fun _ => rfl)

theorem unheard_retarget (g : Graph) (owner old new : Handle) :
    (g.retarget owner old new).unheard = g.unheard.retarget owner old new := by
  unfold retarget
  rw [unheard_foldl, node_unheard]
  · congr 1
    exact unheard_update fun _ => rfl
  · intro g s
    split
    · rw [unheard_acquire, unheard_release]
    · rfl

theorem unheard_rewire (g : Graph) (owner old new : Handle) :
    (g.rewire owner old new).unheard = g.unheard.rewire owner old new :=
  unheard_retarget _ _ _ _

theorem unheard_concretize (g : Graph) (h : Handle) :
    (g.concretize h).unheard = g.unheard.concretize h := by
  have hu : (g.update h fun n =>
      { n with isAbstract := false, owners := [], watchers := [] }).unheard
      = g.unheard.update h fun n => { n with isAbstract := false, owners := [], watchers := [] } :=
    unheard_update fun _ => rfl
  unfold concretize
  rw [← hu]
  have hreg : ∀ f, (g.update h f).unheard.registry = g.registry := fun _ => rfl
  simp only [registry_update, hreg]
  cases g.registry.promote h <;> rfl

theorem unheard_concretizeAll (g : Graph) (group : List Handle) :
    (g.concretizeAll group).unheard = g.unheard.concretizeAll group :=
  unheard_foldl unheard_concretize group g

/-- A change of the nodes or the registry and the same for both. -/
theorem unheard_registerProvisional (g : Graph) (h : Handle) (key : Key) :
    (g.registerProvisional h key).map unheard = g.unheard.registerProvisional h key := by
  unfold registerProvisional
  show _ = if (g.registry.lookup key).isSome then _
    else if (g.registry.entry? h).isSome then _ else _
  split
  · rfl
  · split <;> rfl

/-! ## Questions -/

theorem keyOfNode_unheard (g : Graph) (h : Handle) : g.unheard.keyOfNode h = g.keyOfNode h := by
  unfold keyOfNode
  rw [node_unheard]
  rfl

theorem abstractReach_unheard (g : Graph) (h : Handle) :
    g.unheard.abstractReach h = g.abstractReach h := by
  unfold abstractReach
  simp only [size_unheard, node_unheard]
  rfl

theorem promotable_unheard (g : Graph) (h : Handle) : g.unheard.promotable h = g.promotable h := by
  have hblocks : g.unheard.blocks = g.blocks := by
    funext h
    unfold blocks
    rw [node_unheard]
    rfl
  unfold promotable
  simp only [abstractReach_unheard, node_unheard, hblocks]
  rfl

theorem targets_unheard (g : Graph) (h : Handle) : g.unheard.targets h = g.targets h := by
  unfold targets
  rw [node_unheard, funext g.resolve_unheard]
  rfl

theorem onCycle_unheard (g : Graph) (h : Handle) : g.unheard.onCycle h = g.onCycle h := by
  unfold onCycle
  rw [size_unheard, funext g.targets_unheard]

theorem alike_unheard (n m : Node) : n.unheard.alike m.unheard = n.alike m := rfl

theorem matchPairs_unheard (g : Graph) (partners : Array (Option Handle))
    (pairs : List (Handle × Handle)) :
    g.unheard.matchPairs partners pairs = g.matchPairs partners pairs := by
  fun_induction matchPairs g partners pairs with
  | case1 => rw [matchPairs]
  | case2 partners a b rest x y hxy ih =>
    rw [matchPairs, resolve_unheard, resolve_unheard, if_pos hxy, ih]
  | case3 partners a b rest x y hxy halike hnone ih =>
    rw [matchPairs, resolve_unheard, resolve_unheard, node_unheard, node_unheard,
      alike_unheard, if_neg hxy, if_pos halike, if_pos hnone]
    exact ih
  | case4 partners a b rest x y hxy halike hnone ih =>
    rw [matchPairs, resolve_unheard, resolve_unheard, node_unheard, node_unheard,
      alike_unheard, if_neg hxy, if_pos halike, if_neg hnone, ih]
  | case5 partners a b rest x y hxy halike =>
    rw [matchPairs, resolve_unheard, resolve_unheard, node_unheard, node_unheard,
      alike_unheard, if_neg hxy, if_neg halike]

theorem equivalent?_unheard (g : Graph) (owner : Handle) (key : Key) :
    g.unheard.equivalent? owner key = g.equivalent? owner key := by
  have hmatch : ∀ a b, g.unheard.typesMatch a b = g.typesMatch a b := by
    intro a b
    unfold typesMatch
    rw [size_unheard, matchPairs_unheard]
  unfold equivalent?
  rw [onCycle_unheard]
  simp only [hmatch]
  rfl

theorem observers_unheard (g : Graph) (h : Handle) :
    g.unheard.observers h = (g.observers h).filter Observer.isOwner := by
  have howners : ∀ l : List Handle, (l.map Observer.owner).filter Observer.isOwner =
      l.map Observer.owner := fun l => List.filter_eq_self.2 (by simp [Observer.isOwner])
  have hlisteners : ∀ l : List ListenerId,
      (l.map Observer.listener).filter Observer.isOwner = [] :=
    fun l => List.filter_eq_nil_iff.2 (by simp [Observer.isOwner])
  unfold observers Node.observers
  rw [node_unheard, List.filter_append, howners, hlisteners]
  simp [Node.unheard]

/-! ## The agenda -/

theorem promote_unheard (g : Graph) (start : Handle) :
    g.unheard.promote start = ((g.promote start).1.unheard, (g.promote start).2.map Task.mute) := by
  have hannounce : (fun h => Task.announce h (g.unheard.observers h)) =
      Task.mute ∘ fun h => .announce h (g.observers h) := by
    funext h
    rw [observers_unheard]
    rfl
  unfold promote
  simp only
  rw [promotable_unheard, unheard_concretizeAll, List.map_map, hannounce]

theorem isPlaceholder_unheard (g : Graph) (h : Handle) :
    (g.unheard.node h).isPlaceholder = (g.node h).isPlaceholder := by
  rw [node_unheard]
  rfl

theorem redirectOwner_unheard (g : Graph) (owner old new : Handle) :
    g.unheard.redirectOwner owner old new =
      ((g.redirectOwner owner old new).1.unheard,
        (g.redirectOwner owner old new).2.map Task.mute) := by
  by_cases hp : (g.node owner).isPlaceholder
  · unfold redirectOwner
    rw [isPlaceholder_unheard, if_pos hp, if_pos hp]
    rfl
  · rw [redirectOwner_eq hp, redirectOwner_eq (by rwa [isPlaceholder_unheard]), ← unheard_rewire,
      keyOfNode_unheard]
    cases (g.rewire owner old new).keyOfNode owner with
    | error f => rfl
    | ok key =>
      simp only
      rw [equivalent?_unheard]
      cases (g.rewire owner old new).equivalent? owner key with
      | some existing => rfl
      | none =>
        simp only
        rw [← unheard_registerProvisional]
        cases (g.rewire owner old new).registerProvisional owner key with
        | error f => rfl
        | ok g' => exact promote_unheard g' owner

theorem unheard_moveListener (g : Graph) (id : ListenerId) (old new : Handle) :
    (g.moveListener id old new).1.unheard = g.unheard := by
  unfold moveListener
  simp only
  split
  · exact unheard_unwatch ..
  · rw [unheard_watch]
    exact unheard_unwatch ..

/-- The task does the same without listeners. -/
def Mutes (g : Graph) (t : Task) : Prop :=
  g.unheard.step t.mute = ⟨(g.step t).graph.unheard, (g.step t).tasks.map Task.mute, []⟩

/-- The task tells a listener, which changes nothing but listeners. -/
def TellsListener (g : Graph) (t : Task) : Prop :=
  (g.step t).graph.unheard = g.unheard ∧ (g.step t).tasks.map Task.mute = [t.mute]

theorem mutes_refine (g : Graph) (old new : Handle) : g.Mutes (.refine old new) := by
  show g.unheard.refineStep old new =
    ⟨(g.refineStep old new).graph.unheard, (g.refineStep old new).tasks.map Task.mute, []⟩
  unfold refineStep
  simp only
  rw [node_unheard, resolve_unheard, ← unheard_retire, observers_unheard]
  show (if (g.node old).isRetired then _ else if !(g.node old).isAbstract then _ else _) = _
  split
  · rfl
  · split
    · rfl
    · split <;> rfl

theorem mutes_settled {old new : Handle} (ho : (g.node old).observerCount = 0) :
    g.Mutes (.settle old new []) := by
  have ho' : (g.unheard.node old).observerCount = 0 := by
    rw [node_unheard]
    exact Nat.eq_zero_of_le_zero ((Nat.le_add_right _ _).trans ho.le)
  show g.unheard.settleStep old new [] =
    ⟨(g.settleStep old new []).graph.unheard, (g.settleStep old new []).tasks.map Task.mute, []⟩
  unfold settleStep
  simp only
  rw [if_pos ho, if_pos ho']
  rfl

theorem mutes_settle (g : Graph) (old new owner : Handle) (pending : List Observer) :
    g.Mutes (.settle old new (.owner owner :: pending)) := by
  show g.unheard.settleStep old new (.owner owner :: pending.filter Observer.isOwner) =
    ⟨(g.settleStep old new (.owner owner :: pending)).graph.unheard,
      (g.settleStep old new (.owner owner :: pending)).tasks.map Task.mute, []⟩
  unfold settleStep tellReplaced
  simp only
  rw [node_unheard, resolve_unheard, redirectOwner_unheard]
  show (if (g.node old).isObservedBy (.owner owner) then _ else _) = _
  split
  · rw [List.map_append]
    rfl
  · rfl

theorem tellConcrete_unheard (g : Graph) (ty owner : Handle) :
    g.unheard.tellConcrete ty (.owner owner) =
      ⟨(g.tellConcrete ty (.owner owner)).graph.unheard,
        (g.tellConcrete ty (.owner owner)).tasks.map Task.mute, []⟩ := by
  unfold tellConcrete
  simp only
  rw [isPlaceholder_unheard, promote_unheard]
  split <;> rfl

theorem mutes_announce (g : Graph) (ty owner : Handle) (pending : List Observer) :
    g.Mutes (.announce ty (.owner owner :: pending)) := by
  show g.unheard.announceStep ty (.owner owner :: pending.filter Observer.isOwner) =
    ⟨(g.announceStep ty (.owner owner :: pending)).graph.unheard,
      (g.announceStep ty (.owner owner :: pending)).tasks.map Task.mute, []⟩
  unfold announceStep
  simp only
  rw [tellConcrete_unheard, List.map_append]
  rfl

theorem tellsListener_settle (g : Graph) (old new : Handle) (id : ListenerId)
    (pending : List Observer) : g.TellsListener (.settle old new (.listener id :: pending)) := by
  show (g.settleStep old new (.listener id :: pending)).graph.unheard = g.unheard ∧
    (g.settleStep old new (.listener id :: pending)).tasks.map Task.mute =
      [.settle old new (pending.filter Observer.isOwner)]
  unfold settleStep
  simp only
  split
  · exact ⟨unheard_moveListener .., rfl⟩
  · exact ⟨rfl, rfl⟩

/-- A task that passes its checks does the same without listeners, or tells one. -/
theorem step_mute {t : Task} (h : g.Passes t) : g.Mutes t ∨ g.TellsListener t := by
  cases t with
  | refine old new => exact .inl (g.mutes_refine old new)
  | abort f => exact h.elim
  | settle old new pending =>
    cases pending with
    | nil => exact .inl (mutes_settled h)
    | cons o pending =>
      cases o with
      | owner owner => exact .inl (g.mutes_settle old new owner pending)
      | listener id => exact .inr (g.tellsListener_settle old new id pending)
  | announce ty pending =>
    cases pending with
    | nil => exact .inl rfl
    | cons o pending =>
      cases o with
      | owner owner => exact .inl (g.mutes_announce ty owner pending)
      | listener id => exact .inr ⟨rfl, rfl⟩

theorem fault?_mute (t : Task) : t.mute.fault? = t.fault? := by
  cases t <;> rfl

/-- From a sound state the agenda is worked off alike without listeners, and nothing is heard. -/
theorem Sound.run_unheard {agenda : List Task} {heard : List Event} {out : Graph × List Event}
    (hs : Sound g agenda) (h : g.run agenda heard = .ok out) :
    g.unheard.run (agenda.map Task.mute) [] = .ok (out.1.unheard, []) := by
  fun_induction run g agenda heard with
  | case1 g heard =>
    cases h
    rw [List.map_nil, run]
  | case2 g heard t rest f hf => cases h
  | case3 g heard t rest hf next ih =>
    have hrest := ih hs.step h
    rw [List.map_append] at hrest
    rcases step_mute hs.passes with hmute | ⟨hgraph, htasks⟩
    · have hmute' : g.unheard.step t.mute = ⟨next.graph.unheard, next.tasks.map Task.mute, []⟩ :=
        hmute
      rw [List.map_cons, run, fault?_mute, hf]
      simp only [hmute', List.append_nil]
      exact hrest
    · have hgraph' : next.graph.unheard = g.unheard := hgraph
      have htasks' : next.tasks.map Task.mute = [t.mute] := htasks
      rwa [hgraph', htasks'] at hrest

/-! ## Actions -/

theorem misused_unheard {f : Fault} (h : Misused g (.refine old new) (.fault f)) :
    Misused g.unheard (.refine old new) (.fault f) := by
  have hlive : g.unheard.Live old ↔ g.Live old := live_congr (by rw [node_unheard]; rfl)
  have habs : (g.unheard.node old).isAbstract = (g.node old).isAbstract := by
    rw [node_unheard]
    rfl
  cases h with
  | retired hl => exact .retired (mt hlive.1 hl)
  | concrete hl ha => exact .concrete (hlive.2 hl) (habs.trans ha)
  | itself hl ha hr => exact .itself (hlive.2 hl) (habs.trans ha) ((resolve_unheard ..).trans hr)

theorem Reachable.refine_unheard (hg : Reachable g) (hlt : new.index < g.size) :
    g.unheard.refine old new = (g.refine old new).map fun out => (out.1.unheard, []) := by
  rcases g.refinable_or_misused old new with hr | ⟨f, hm⟩
  · obtain ⟨out, hout⟩ := (hg.sound hr hlt).exists_run []
    have hmuted := (hg.sound hr hlt).run_unheard hout
    unfold Graph.refine
    rw [hout]
    exact hmuted
  · rw [hm.refine_eq, (misused_unheard hm).refine_eq]
    rfl

theorem flags_unheard (g : Graph) (h : Handle) : g.unheard.flags h = g.flags h := by
  unfold flags live
  rw [resolve_unheard, node_unheard]
  rfl

theorem kind_unheard (g : Graph) (h : Handle) : g.unheard.kind h = g.kind h := by
  unfold kind live
  rw [resolve_unheard, node_unheard]
  rfl

theorem unheard_push (g : Graph) (n : Node) : (g.push n).unheard = g.unheard.push n.unheard := by
  unfold unheard push
  rw [Array.map_push]

theorem intern_unheard (g : Graph) (key : Key) :
    g.unheard.intern key = ((g.intern key).1, (g.intern key).2.unheard) := by
  have hflags : g.unheard.flags = g.flags := funext g.flags_unheard
  have hgrown : ∀ isAbstract, key.parts.foldl (fun g' p => g'.acquire g.next p)
        (g.unheard.push (.fresh key.shape key.parts isAbstract)) =
      (key.parts.foldl (fun g' p => g'.acquire g.next p)
        (g.push (.fresh key.shape key.parts isAbstract))).unheard := by
    intro isAbstract
    rw [unheard_foldl fun g' p => g'.unheard_acquire g.next p, unheard_push]
    rfl
  have hregistry : g.unheard.registry = g.registry := rfl
  unfold intern
  rw [hregistry]
  cases g.registry.lookup key with
  | some h => rfl
  | none =>
    simp only [hflags, size_unheard]
    generalize (Flags.propagate (key.parts.map g.flags)).isAbstract = isAbstract
    have hregister := fun table : Table =>
      congrArg (fun g' : Graph => { g' with registry := g'.registry.insert g.next key table })
        (hgrown isAbstract)
    exact congrArg (Prod.mk g.next) (hregister _)

theorem ofMade_intern_unheard (g : Graph) (key : Key) :
    Performed.ofMade (g.unheard.intern key) = (Performed.ofMade (g.intern key)).unheard := by
  rw [intern_unheard]
  rfl

/-- An action that makes or refines a type answers the same without listeners, and does the same to
types. -/
theorem Reachable.perform_unheard (hg : Reachable g) {a : Action}
    (ha : ∀ h ∈ a.handles, h.index < g.size) (hl : a.isListening = false) :
    g.unheard.perform a = (g.perform a).map Performed.unheard := by
  have hresolve : g.unheard.resolve = g.resolve := funext g.resolve_unheard
  cases a with
  | subscribe | unsubscribe => cases hl
  | integer bits =>
    rw [Graph.perform, Graph.perform, integer, integer]
    split
    · exact congrArg Except.ok (g.ofMade_intern_unheard _)
    · rfl
  | vector elem len =>
    rw [Graph.perform, Graph.perform, vector, vector, kind_unheard, hresolve]
    split
    · exact congrArg Except.ok (g.ofMade_intern_unheard _)
    · rfl
  | function ret params varargs attrs =>
    rw [Graph.perform, Graph.perform, function, function, hresolve]
    exact congrArg Except.ok (g.ofMade_intern_unheard _)
  | struct fields packed =>
    rw [Graph.perform, Graph.perform, struct, struct, hresolve]
    exact congrArg Except.ok (g.ofMade_intern_unheard _)
  | array elem len =>
    rw [Graph.perform, Graph.perform, array, array, hresolve]
    exact congrArg Except.ok (g.ofMade_intern_unheard _)
  | pointer elem =>
    rw [Graph.perform, Graph.perform, pointer, pointer, hresolve]
    exact congrArg Except.ok (g.ofMade_intern_unheard _)
  | placeholder =>
    have hpush := g.unheard_push (.fresh .placeholder [] true)
    rw [Graph.perform, Graph.perform, placeholder, placeholder, size_unheard]
    exact congrArg (fun g' : Graph => Except.ok (⟨g', .made g.next, []⟩ : Performed)) hpush.symm
  | refine old new =>
    rw [Graph.perform, Graph.perform, hg.refine_unheard (ha new (by simp [Action.handles]))]
    cases g.refine old new with
    | error f => rfl
    | ok out =>
      show Except.ok _ = Except.ok _
      rw [resolve_unheard]
      rfl

theorem unheard_subscribe {ty : Handle} {id : ListenerId} {g' : Graph}
    (hs : g.subscribe ty = some (id, g')) : g'.unheard = g.unheard := by
  unfold subscribe at hs
  simp only at hs
  split at hs
  · cases hs
    exact unheard_watch ..
  · cases hs

theorem unheard_unsubscribe {id : ListenerId} {g' : Graph} (hu : g.unsubscribe id = some g') :
    g'.unheard = g.unheard := by
  unfold unsubscribe at hu
  obtain ⟨ty, -, rfl⟩ := Option.map_eq_some_iff.1 hu
  exact unheard_unwatch ..

/-- An action about listeners changes nothing else. -/
theorem unheard_after {a : Action} (hl : a.isListening) : (g.after a).unheard = g.unheard := by
  cases a with
  | subscribe ty =>
    unfold after perform
    simp only
    cases hs : g.subscribe ty with
    | none => rfl
    | some made => exact unheard_subscribe hs
  | unsubscribe id =>
    unfold after perform
    simp only
    cases hu : g.unsubscribe id with
    | none => rfl
    | some g' => exact unheard_unsubscribe hu
  | integer | function | struct | array | vector | pointer | placeholder | refine => cases hl

section Types

variable {a : Action} (hg : Reachable g) (ha : ∀ h ∈ a.handles, h.index < g.size)
  (hl : a.isListening = false)

include hg ha hl

theorem Reachable.answer_unheard : g.unheard.answer a = g.answer a := by
  unfold answer
  rw [hg.perform_unheard ha hl]
  cases g.perform a <;> rfl

theorem Reachable.after_unheard : g.unheard.after a = (g.after a).unheard := by
  unfold Graph.after
  rw [hg.perform_unheard ha hl]
  cases g.perform a <;> rfl

end Types

/-! ## Scripts -/

/-- From a reachable graph a script shows the same as what is left of it without listeners. -/
theorem Reachable.record_unheard {script : List Action} (hg : Reachable g) (hs : g.admits script) :
    g.unheard.admits (typesOnly script) ∧
      g.unheard.record (typesOnly script) = g.record script := by
  induction script generalizing g with
  | nil => exact ⟨rfl, rfl⟩
  | cons a script ih =>
    obtain ⟨ha, hs⟩ := admits_cons.1 hs
    obtain ⟨hadmits, hrecord⟩ := ih (hg.after ha) hs
    cases hl : a.isListening with
    | true =>
      have htypes : typesOnly (a :: script) = typesOnly script :=
        List.filter_cons_of_neg (by simp [hl])
      rw [unheard_after hl] at hadmits hrecord
      rw [record, if_pos hl, htypes]
      exact ⟨hadmits, hrecord⟩
    | false =>
      have htypes : typesOnly (a :: script) = a :: typesOnly script :=
        List.filter_cons_of_pos (by simp [hl])
      rw [← hg.after_unheard ha hl] at hadmits hrecord
      rw [htypes, record, record, hl, hg.answer_unheard ha hl, hrecord, hg.after_unheard ha hl,
        unheard_unheard]
      exact ⟨admits_cons.2 ⟨by rwa [size_unheard], hadmits⟩, rfl⟩

theorem unheard_initial : initial.unheard = initial := by cbv

/-- **Listeners never influence types.** Take all that is about listeners out of a script. What is
left can be played, and each of its actions has the same answer as before and leads to the same
graph, listeners aside. -/
theorem record_typesOnly {script : List Action} (hs : initial.admits script) :
    initial.admits (typesOnly script) ∧
      initial.record (typesOnly script) = initial.record script := by
  have h := Reachable.initial.record_unheard hs
  rwa [unheard_initial] at h

set_option maxRecDepth 10000 in
/-- Two listeners on placeholders, one of them taken back between two refinements, and a third that
comes when there is nothing more to hear. One refinement merges two lists, another one fails. -/
theorem record_typesOnly_lists :
    initial.admits
      [.placeholder, .pointer ⟨9⟩, .struct [.i32, ⟨10⟩] false, .subscribe ⟨9⟩, .refine ⟨9⟩ ⟨11⟩,
        .placeholder, .subscribe ⟨12⟩, .pointer ⟨12⟩, .struct [.i32, ⟨13⟩] false, .subscribe ⟨14⟩,
        .unsubscribe ⟨1⟩, .refine ⟨12⟩ ⟨14⟩, .refine ⟨12⟩ ⟨11⟩, .subscribe ⟨14⟩] ∧
    initial.record
      [.placeholder, .pointer ⟨9⟩, .struct [.i32, ⟨10⟩] false, .refine ⟨9⟩ ⟨11⟩,
        .placeholder, .pointer ⟨12⟩, .struct [.i32, ⟨13⟩] false, .refine ⟨12⟩ ⟨14⟩,
        .refine ⟨12⟩ ⟨11⟩] =
    initial.record
      [.placeholder, .pointer ⟨9⟩, .struct [.i32, ⟨10⟩] false, .subscribe ⟨9⟩, .refine ⟨9⟩ ⟨11⟩,
        .placeholder, .subscribe ⟨12⟩, .pointer ⟨12⟩, .struct [.i32, ⟨13⟩] false, .subscribe ⟨14⟩,
        .unsubscribe ⟨1⟩, .refine ⟨12⟩ ⟨14⟩, .refine ⟨12⟩ ⟨11⟩, .subscribe ⟨14⟩] := by
  have h : initial.admits
      [.placeholder, .pointer ⟨9⟩, .struct [.i32, ⟨10⟩] false, .subscribe ⟨9⟩, .refine ⟨9⟩ ⟨11⟩,
        .placeholder, .subscribe ⟨12⟩, .pointer ⟨12⟩, .struct [.i32, ⟨13⟩] false, .subscribe ⟨14⟩,
        .unsubscribe ⟨1⟩, .refine ⟨12⟩ ⟨14⟩, .refine ⟨12⟩ ⟨11⟩, .subscribe ⟨14⟩] := by cbv
  exact ⟨h, (record_typesOnly h).2⟩

end Graph

end TypeGraph
