import TypeGraph.Graph.View

/-!
# Descriptions

What a type says of itself, kind by kind, and the questions that only some kinds answer.
-/

namespace TypeGraph

/-- A type taken apart once, its components as handles. -/
inductive Description where
  | primitive (p : Primitive)
  | integer (bits : UInt32)
  | function (ret : Handle) (params : List Handle) (varargs : Bool) (attrs : List Attributes)
  | struct (fields : List Handle) (packed : Bool)
  | array (elem : Handle) (len : UInt64)
  | vector (elem : Handle) (len : UInt32)
  | pointer (elem : Handle)
  | placeholder
deriving DecidableEq, Repr

/-- A key taken apart, if it has the components that its shape calls for. -/
def Key.describe? : Key → Option Description
  | ⟨.primitive p, []⟩ => some (.primitive p)
  | ⟨.integer bits, []⟩ => some (.integer bits)
  | ⟨.function varargs attrs, ret :: params⟩ => some (.function ret params varargs attrs)
  | ⟨.struct packed, fields⟩ => some (.struct fields packed)
  | ⟨.array len, [elem]⟩ => some (.array elem len)
  | ⟨.vector len, [elem]⟩ => some (.vector elem len)
  | ⟨.pointer, [elem]⟩ => some (.pointer elem)
  | ⟨.placeholder, []⟩ => some .placeholder
  | _ => none

/-- The size of a scalar in bits, nought for all other shapes. -/
def Shape.scalarBits : Shape → Nat
  | integer bits => bits.toNat
  | primitive .float => 32
  | primitive .double => 64
  | _ => 0

namespace Graph

/-- The live type taken apart. -/
def describe? (g : Graph) (h : Handle) : Option Description := (g.live h).key.describe?

/-- The element of a sequential type, its only slot. A type without slots is its own element. -/
def element (g : Graph) (h : Handle) : Handle := (g.live h).slots.headD (g.resolve h)

/-- The size of a scalar or a vector in bits, nought for all other types. The elements of a vector
are scalars. -/
def sizeInBits (g : Graph) (h : Handle) : Nat :=
  match (g.live h).shape with
  | .vector len => len.toNat * (g.live (g.element h)).shape.scalarBits
  | s => s.scalarBits

/-- The width of a vector: its length times the size of its element. -/
def vectorBits (g : Graph) (elem : Handle) (len : UInt32) : Nat := len.toNat * g.sizeInBits elem

/-- Field `n` of a structure. -/
def fieldType (g : Graph) (h : Handle) (n : Nat) : Except Fault Handle := do
  let v ← g.cast .struct h
  let fields := g.contained v.handle
  match fields[n]? with
  | some field => .ok field
  | none => .error (.fieldOutOfRange n fields.length)

/-- Parameter `n` of a function. -/
def paramType (g : Graph) (h : Handle) (n : Nat) : Except Fault Handle := do
  let v ← g.cast .function h
  let params := (g.contained v.handle).drop 1
  match params[n]? with
  | some param => .ok param
  | none => .error (.outOfBounds params.length n)

/-- The attributes of parameter `n` of a function, counted from one, or of its returned value. -/
def paramAttrs (g : Graph) (h : Handle) (n : Nat) : Except Fault Attributes := do
  let v ← g.cast .function h
  match (g.live v.handle).shape with
  | .function _ attrs => .ok (Attributes.entry attrs n)
  | _ => .ok .none

end Graph

end TypeGraph
