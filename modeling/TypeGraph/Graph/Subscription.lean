import TypeGraph.Graph.Basic

/-!
# Subscriptions

A listener subscribes to an abstract type and follows it through refinements. It hears each
refinement of its type, and last that its type became concrete. It stays with the graph until it
is taken back.
-/

namespace TypeGraph

/-- What a listener hears. -/
inductive Event where
  | refined (id : ListenerId) (old new : Handle)
  | concrete (id : ListenerId) (ty : Handle)
deriving DecidableEq, Repr

namespace Graph

/-- The type that a subscription was last told of, none once it was cancelled. -/
def tracked? (g : Graph) (id : ListenerId) : Option Handle := g.subscriptions[id.index]?.join

/-- The live type that a subscription follows. -/
def target? (g : Graph) (id : ListenerId) : Option Handle := (g.tracked? id).map g.resolve

/-- Sets what a subscription tracks. -/
def track (g : Graph) (id : ListenerId) (ty : Option Handle) : Graph :=
  { g with subscriptions := g.subscriptions.setIfInBounds id.index ty }

/-- Subscribes to an abstract type. There is nothing to hear of a concrete one. -/
def subscribe (g : Graph) (ty : Handle) : Option (ListenerId × Graph) :=
  let ty := g.resolve ty
  if g.isAbstract ty then
    let id : ListenerId := ⟨g.subscriptions.size⟩
    some (id, { g with subscriptions := g.subscriptions.push (some ty) }.watch id ty)
  else
    none

/-- Cancels a subscription, unless it was cancelled before. -/
def unsubscribe (g : Graph) (id : ListenerId) : Option Graph :=
  (g.tracked? id).map fun ty => (g.track id none).unwatch id ty

/-- Moves a subscription from a replaced type to its replacement and tells the listener. -/
def moveListener (g : Graph) (id : ListenerId) (old new : Handle) : Graph × List Event :=
  let left := g.unwatch id old
  match left.tracked? id with
  | none => (left, [])
  | some _ => ((left.track id (some new)).watch id new, [.refined id old new])

/-- What a listener hears when its type became concrete. -/
def concreteEvents (g : Graph) (id : ListenerId) (ty : Handle) : List Event :=
  if (g.tracked? id).isSome then [.concrete id ty] else []

end Graph

end TypeGraph
