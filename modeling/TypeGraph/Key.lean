import TypeGraph.Handle
import TypeGraph.Kind
import TypeGraph.Attributes

/-!
# Shapes and structural keys

A derived type is a shape applied to component types. The shape holds all that is not a component:
the kind, widths, lengths, packing, variable arguments and attributes. A structural key is a shape
with the handles of its components, and it is what types are uniqued by.
-/

namespace TypeGraph

/-- The head of a type. -/
inductive Shape where
  | primitive (p : Primitive)
  | integer (bits : UInt32)
  /-- Applied to the returned type and the parameters. -/
  | function (varargs : Bool) (attrs : List Attributes)
  | struct (packed : Bool)
  | array (len : UInt64)
  | vector (len : UInt32)
  | pointer
  | placeholder
deriving DecidableEq, Repr

namespace Shape

instance : Inhabited Shape := ⟨primitive .void⟩

def kind : Shape → Kind
  | primitive p => .primitive p
  | integer _ => .integer
  | function _ _ => .function
  | struct _ => .struct
  | array _ => .array
  | vector _ => .vector
  | pointer => .pointer
  | placeholder => .placeholder

/-- The number of components that the shape cannot do without. -/
def minParts : Shape → Nat
  | function _ _ | array _ | vector _ | pointer => 1
  | primitive _ | integer _ | struct _ | placeholder => 0

end Shape

/-- A shape with its components in slot order. -/
structure Key where
  shape : Shape
  parts : List Handle
deriving DecidableEq, Repr

namespace Key

def integer (bits : UInt32) : Key := ⟨.integer bits, []⟩

/-- The attributes are taken as given; the factory for function types trims them. -/
def function (ret : Handle) (params : List Handle) (varargs : Bool) (attrs : List Attributes) :
    Key :=
  ⟨.function varargs attrs, ret :: params⟩

def struct (fields : List Handle) (packed : Bool) : Key := ⟨.struct packed, fields⟩

def array (elem : Handle) (len : UInt64) : Key := ⟨.array len, [elem]⟩

def vector (elem : Handle) (len : UInt32) : Key := ⟨.vector len, [elem]⟩

def pointer (elem : Handle) : Key := ⟨.pointer, [elem]⟩

def kind (k : Key) : Kind := k.shape.kind

/-- All of a key but the identity of its components. -/
def outline (k : Key) : Shape × Nat := (k.shape, k.parts.length)

end Key

end TypeGraph
