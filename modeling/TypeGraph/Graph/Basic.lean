import TypeGraph.Flags
import TypeGraph.Registry

/-!
# The type graph

Types are the nodes of an arena that only grows. A node holds its components in slots. While a
type is abstract it counts its observers: once per slot that holds it the owner of the slot, and
once per subscription the listener. A node that was replaced is retired: it has no slots left and
forwards to its replacement.
-/

namespace TypeGraph

/-- One type of the arena. -/
structure Node where
  shape : Shape
  slots : List Handle
  /-- The type is a placeholder or reaches one. -/
  isAbstract : Bool
  /-- The owners of the slots that hold this type, one for each slot. -/
  owners : List Handle
  /-- The subscriptions to this type. -/
  watchers : List ListenerId
  /-- The replacement of a retired type. -/
  forward : Option Handle
deriving DecidableEq, Repr

/-- Who hears of the refinement of an abstract type. -/
inductive Observer where
  | owner (h : Handle)
  | listener (id : ListenerId)
deriving DecidableEq, Repr

namespace Node

/-- A new node that nobody observes yet. -/
def fresh (shape : Shape) (slots : List Handle) (isAbstract : Bool) : Node :=
  ⟨shape, slots, isAbstract, [], [], none⟩

instance : Inhabited Node := ⟨fresh default [] false⟩

def kind (n : Node) : Kind := n.shape.kind

def isRetired (n : Node) : Bool := n.forward.isSome

def isPlaceholder (n : Node) : Bool := n.kind = .placeholder

/-- Only live abstract types count their observers. -/
def isObservable (n : Node) : Bool := n.isAbstract && !n.isRetired

def flags (n : Node) : Flags :=
  (Flags.when n.isAbstract .abstract).union
    ((Flags.when n.isPlaceholder .placeholder).union (Flags.when n.isRetired .retired))

/-- The structure of the node. -/
def key (n : Node) : Key := ⟨n.shape, n.slots⟩

/-- The distinct observers in the order in which they are told: owners, then listeners, each by
rising number. -/
def observers (n : Node) : List Observer :=
  (n.owners.eraseDups.mergeSort fun a b => a.index ≤ b.index).map .owner ++
    (n.watchers.eraseDups.mergeSort fun a b => a.index ≤ b.index).map .listener

/-- Whether the observer is counted here. -/
def isObservedBy (n : Node) : Observer → Bool
  | .owner h => n.owners.contains h
  | .listener id => n.watchers.contains id

/-- The number of slots and subscriptions that hold the type. -/
def observerCount (n : Node) : Nat := n.owners.length + n.watchers.length

end Node

/-- All types of one universe, the registry of their keys, and what each subscription tracks. -/
structure Graph where
  nodes : Array Node
  registry : Registry
  /-- The tracked type of each subscription, none once it was cancelled. -/
  subscriptions : Array (Option Handle)
deriving Repr

namespace Graph

def size (g : Graph) : Nat := g.nodes.size

/-- The node in a place, replaced or not; past the arena a scalar that nothing holds. -/
def node (g : Graph) (h : Handle) : Node := g.nodes[h.index]?.getD default

/-- Changes one node. -/
def update (g : Graph) (h : Handle) (f : Node → Node) : Graph :=
  { g with nodes := g.nodes.modify h.index f }

/-- Every handle of the arena. -/
def handles (g : Graph) : List Handle := (List.range g.size).map Handle.mk

/-! ## Forwarding -/

/-- Follows at most `n` forward links. -/
def follow (g : Graph) : Nat → Handle → Handle
  | 0, h => h
  | n + 1, h =>
    match (g.node h).forward with
    | none => h
    | some next => g.follow n next

/-- The live type that a handle stands for. A path of forward links without repetition is no
longer than the arena. -/
def resolve (g : Graph) (h : Handle) : Handle := g.follow g.size h

/-- The node of the live type that a handle stands for. -/
def live (g : Graph) (h : Handle) : Node := g.node (g.resolve h)

/-! ## Questions -/

def kind (g : Graph) (h : Handle) : Kind := (g.live h).kind

def flags (g : Graph) (h : Handle) : Flags := (g.live h).flags

def isAbstract (g : Graph) (h : Handle) : Bool := (g.live h).isAbstract

/-- Whether the handle names a type that was replaced. -/
def isRetired (g : Graph) (h : Handle) : Bool := (g.node h).isRetired

/-- The components in slot order. -/
def contained (g : Graph) (h : Handle) : List Handle := (g.live h).slots

/-- The observers of the node itself, forwarding aside. -/
def observers (g : Graph) (h : Handle) : List Observer := (g.node h).observers

/-- How many slots and subscriptions hold the node itself. -/
def observerCount (g : Graph) (h : Handle) : Nat := (g.node h).observerCount

/-- The key under which a type is registered. -/
def registeredKey? (g : Graph) (h : Handle) : Option Key := g.registry.keyOf? (g.resolve h)

/-- Whether a type is registered as concrete. -/
def isCanonical (g : Graph) (h : Handle) : Bool :=
  g.registry.tableOf? (g.resolve h) = some .canonical

def canonicalCount (g : Graph) : Nat := g.registry.count .canonical

def provisionalCount (g : Graph) : Nat := g.registry.count .provisional

/-- The number of types that were not replaced. -/
def liveCount (g : Graph) : Nat := g.nodes.countP fun n => !n.isRetired

def isEmpty (g : Graph) : Bool := g.nodes.isEmpty

/-- The counts of the whole graph in diagnostics. -/
def debug (g : Graph) : String :=
  "TypeContext \x7b len: " ++ toString g.size ++ ", live: " ++ toString g.liveCount ++
    ", canonical: " ++ toString g.canonicalCount ++ ", provisional: " ++
    toString g.provisionalCount ++ " \x7d"

/-- The size of a shared graph in diagnostics. -/
def sharedDebug (g : Graph) : String :=
  "SharedTypeContext \x7b len: " ++ toString g.size ++ " \x7d"

/-! ## Observers

One count is added for each slot or subscription that comes to hold an abstract type, and one is
taken for each that leaves it. -/

/-- Counts the owner of a slot that came to hold `target`. -/
def acquire (g : Graph) (owner target : Handle) : Graph :=
  g.update target fun n => if n.isObservable then { n with owners := owner :: n.owners } else n

/-- Takes one count of the owner of a slot that left `target`. -/
def release (g : Graph) (owner target : Handle) : Graph :=
  g.update target fun n => { n with owners := n.owners.erase owner }

/-- Counts a subscription that came to track `target`. -/
def watch (g : Graph) (id : ListenerId) (target : Handle) : Graph :=
  g.update target fun n => if n.isObservable then { n with watchers := id :: n.watchers } else n

/-- Takes the count of a subscription that left `target`. -/
def unwatch (g : Graph) (id : ListenerId) (target : Handle) : Graph :=
  g.update target fun n => { n with watchers := n.watchers.erase id }

end Graph

end TypeGraph
