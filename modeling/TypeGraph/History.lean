import TypeGraph.Graph.Factory
import TypeGraph.Graph.Refinement

/-!
# Histories

Everything that can happen to a graph is an action. A graph is reachable when a sequence of actions
leads to it from the built-in types; an action that fails leaves the graph as it was.
-/

namespace TypeGraph

/-- What can be asked of a graph. -/
inductive Action where
  | integer (bits : UInt32)
  | function (ret : Handle) (params : List Handle) (varargs : Bool) (attrs : List Attributes)
  | struct (fields : List Handle) (packed : Bool)
  | array (elem : Handle) (len : UInt64)
  | vector (elem : Handle) (len : UInt32)
  | pointer (elem : Handle)
  | placeholder
  | refine (old new : Handle)
  | subscribe (ty : Handle)
  | unsubscribe (id : ListenerId)
deriving DecidableEq, Repr

/-- The handles that an action names. -/
def Action.handles : Action → List Handle
  | integer _ | placeholder | unsubscribe _ => []
  | function ret params _ _ => ret :: params
  | struct fields _ => fields
  | array elem _ | vector elem _ | pointer elem => [elem]
  | refine old new => [old, new]
  | subscribe ty => [ty]

/-- What an action answers. -/
inductive Reply where
  /-- A factory gives a type. -/
  | made (h : Handle)
  /-- A refined type stands for this one now. -/
  | refined (h : Handle)
  /-- There is no subscription to a concrete type. -/
  | subscribed (id : Option ListenerId)
  /-- Whether the subscription was there to cancel. -/
  | unsubscribed (found : Bool)
deriving DecidableEq, Repr

/-- Why an action has no answer. -/
inductive Failure where
  | refused (e : TypeError)
  | fault (f : Fault)
deriving DecidableEq, Repr

/-- The graph after an action, the answer, and what listeners heard. -/
structure Performed where
  graph : Graph
  reply : Reply
  events : List Event

/-- A type that was made, as the outcome of an action. -/
def Performed.ofMade (made : Handle × Graph) : Performed := ⟨made.2, .made made.1, []⟩

namespace Graph

/-- Performs an action. -/
def perform (g : Graph) : Action → Except Failure Performed
  | .integer bits => ((g.integer bits).mapError .refused).map .ofMade
  | .function ret params varargs attrs => .ok (.ofMade (g.function ret params varargs attrs))
  | .struct fields packed => .ok (.ofMade (g.struct fields packed))
  | .array elem len => .ok (.ofMade (g.array elem len))
  | .vector elem len => ((g.vector elem len).mapError .fault).map .ofMade
  | .pointer elem => .ok (.ofMade (g.pointer elem))
  | .placeholder => .ok (.ofMade g.placeholder)
  | .refine old new =>
    match g.refine old new with
    | .ok (g, events) => .ok ⟨g, .refined (g.resolve old), events⟩
    | .error f => .error (.fault f)
  | .subscribe ty =>
    match g.subscribe ty with
    | some (id, g) => .ok ⟨g, .subscribed (some id), []⟩
    | none => .ok ⟨g, .subscribed none, []⟩
  | .unsubscribe id =>
    match g.unsubscribe id with
    | some g => .ok ⟨g, .unsubscribed true, []⟩
    | none => .ok ⟨g, .unsubscribed false, []⟩

/-- The graphs that actions on existing handles lead to. -/
inductive Reachable : Graph → Prop where
  | initial : Reachable initial
  | perform {g : Graph} {a : Action} {p : Performed} (hg : Reachable g)
      (ha : ∀ h ∈ a.handles, h.index < g.size) (hp : g.perform a = .ok p) : Reachable p.graph

/-- The graphs that actions on existing handles lead to from a given one. -/
inductive Leads (g : Graph) : Graph → Prop where
  | refl : Leads g g
  | perform {g' : Graph} {a : Action} {p : Performed} (hl : Leads g g')
      (ha : ∀ h ∈ a.handles, h.index < g'.size) (hp : g'.perform a = .ok p) : Leads g p.graph

end Graph

end TypeGraph
