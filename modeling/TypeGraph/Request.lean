import TypeGraph.Graph.Description
import TypeGraph.History

/-!
# Requests for types

A factory call asks for a type of a shape over given components. It describes the type with the
components resolved, and the key that it asks for has the attributes trimmed as well, so that calls
that mean the same ask for one key.
-/

namespace TypeGraph

/-- Whether an action asks a factory for a type. -/
def Action.isFactory : Action → Bool
  | integer _ | function _ _ _ _ | struct _ _ | array _ _ | vector _ _ | pointer _ => true
  | placeholder | refine _ _ | subscribe _ | unsubscribe _ => false

/-- The factory call for a type of a shape over components, if a factory makes such types. -/
def Shape.call? : Shape → List Handle → Option Action
  | integer bits, [] => some (.integer bits)
  | function varargs attrs, ret :: params => some (.function ret params varargs attrs)
  | struct packed, fields => some (.struct fields packed)
  | array len, [elem] => some (.array elem len)
  | vector len, [elem] => some (.vector elem len)
  | pointer, [elem] => some (.pointer elem)
  | _, _ => none

/-- The shape with the attributes of a function trimmed. -/
def Shape.trimmed : Shape → Shape
  | function varargs attrs => function varargs (Attributes.trim attrs)
  | s => s

/-- The key of what is described. -/
def Description.key : Description → Key
  | primitive p => ⟨.primitive p, []⟩
  | integer bits => .integer bits
  | function ret params varargs attrs => .function ret params varargs attrs
  | struct fields packed => .struct fields packed
  | array elem len => .array elem len
  | vector elem len => .vector elem len
  | pointer elem => .pointer elem
  | placeholder => ⟨.placeholder, []⟩

/-- The description with the attributes of a function trimmed. -/
def Description.trimmed : Description → Description
  | function ret params varargs attrs => function ret params varargs (Attributes.trim attrs)
  | d => d

/-- The descriptions are the same, but that the attribute lists of a function need only agree at
every index when padded with empty sets. -/
inductive Description.Agrees : Description → Description → Prop where
  | refl (d : Description) : Agrees d d
  | function {ret : Handle} {params : List Handle} {varargs : Bool} {as bs : List Attributes}
      (h : ∀ i, Attributes.entry as i = Attributes.entry bs i) :
      Agrees (function ret params varargs as) (function ret params varargs bs)

namespace Graph

/-- The type that a factory call describes, its components resolved; none for other actions. -/
def asked? (g : Graph) : Action → Option Description
  | .integer bits => some (.integer bits)
  | .function ret params varargs attrs =>
    some (.function (g.resolve ret) (params.map g.resolve) varargs attrs)
  | .struct fields packed => some (.struct (fields.map g.resolve) packed)
  | .array elem len => some (.array (g.resolve elem) len)
  | .vector elem len => some (.vector (g.resolve elem) len)
  | .pointer elem => some (.pointer (g.resolve elem))
  | .placeholder | .refine _ _ | .subscribe _ | .unsubscribe _ => none

/-- The key that a factory call asks for; none if the call is refused, or is no factory call. -/
def requested (g : Graph) : Action → Option Key
  | .integer bits => if IntegerWidth.isValid bits then some (.integer bits) else none
  | .function ret params varargs attrs =>
    some (.function (g.resolve ret) (params.map g.resolve) varargs (Attributes.trim attrs))
  | .struct fields packed => some (.struct (fields.map g.resolve) packed)
  | .array elem len => some (.array (g.resolve elem) len)
  | .vector elem len =>
    if (g.kind elem).isVectorElement then some (.vector (g.resolve elem) len) else none
  | .pointer elem => some (.pointer (g.resolve elem))
  | .placeholder | .refine _ _ | .subscribe _ | .unsubscribe _ => none

end Graph

end TypeGraph
