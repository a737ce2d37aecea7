import TypeGraph.Error
import TypeGraph.Graph.Basic

/-!
# Factories

All derived types but placeholders are made by `intern`: it gives the registered instance of a key
and makes a node only when there is none. A factory resolves its components first, so equal
requests give the same handle. A placeholder is distinct from every other type.
-/

namespace TypeGraph.Graph

/-- The instance of a key, made if need be. A new type is abstract when one of its components is,
and is counted by each abstract component once for each slot. -/
def intern (g : Graph) (k : Key) : Handle × Graph :=
  match g.registry.lookup k with
  | some h => (h, g)
  | none =>
    let h : Handle := ⟨g.size⟩
    let isAbstract := (Flags.propagate (k.parts.map g.flags)).isAbstract
    let table := if isAbstract then Table.provisional else Table.canonical
    let grown := { g with nodes := g.nodes.push (.fresh k.shape k.parts isAbstract) }
    let observed := k.parts.foldl (fun g p => g.acquire h p) grown
    (h, { observed with registry := observed.registry.insert h k table })

/-- The graph of the scalars alone. -/
def scalars : Graph where
  nodes := #[.void, .float, .double, .label].map fun p => .fresh (.primitive p) [] false
  registry := .empty
  subscriptions := #[]

/-- The graph of the built-in types: the scalars and five integers. -/
def initial : Graph :=
  [1, 8, 16, 32, 64].foldl (fun g bits => (g.intern (.integer bits)).2) scalars

/-- The integer type of a width. -/
def integer (g : Graph) (bits : UInt32) : Except TypeError (Handle × Graph) :=
  if IntegerWidth.isValid bits then
    .ok (g.intern (.integer bits))
  else
    .error (.invalidWidth bits)

/-- A function type. The attributes of the returned value come first, then those of the
parameters; missing ones are empty. -/
def function (g : Graph) (ret : Handle) (params : List Handle) (varargs : Bool)
    (attrs : List Attributes) : Handle × Graph :=
  g.intern (.function (g.resolve ret) (params.map g.resolve) varargs (Attributes.trim attrs))

/-- The structure with the given fields. -/
def struct (g : Graph) (fields : List Handle) (packed : Bool) : Handle × Graph :=
  g.intern (.struct (fields.map g.resolve) packed)

/-- The array type of an element type and a length. -/
def array (g : Graph) (elem : Handle) (len : UInt64) : Handle × Graph :=
  g.intern (.array (g.resolve elem) len)

/-- The vector type of an integer or float type and a length. -/
def vector (g : Graph) (elem : Handle) (len : UInt32) : Except Fault (Handle × Graph) :=
  if (g.kind elem).isVectorElement then
    .ok (g.intern (.vector (g.resolve elem) len))
  else
    .error (.vectorElement (g.kind elem))

/-- The type of pointers to a type. -/
def pointer (g : Graph) (elem : Handle) : Handle × Graph :=
  g.intern (.pointer (g.resolve elem))

/-- The type reached by taking pointers `n` times. -/
def pointers (g : Graph) (elem : Handle) : Nat → Handle × Graph
  | 0 => (elem, g)
  | n + 1 =>
    let (h, g) := g.pointer elem
    g.pointers h n

/-- A new forward declaration. -/
def placeholder (g : Graph) : Handle × Graph :=
  (⟨g.size⟩, { g with nodes := g.nodes.push (.fresh .placeholder [] true) })

end TypeGraph.Graph
