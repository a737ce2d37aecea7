import TypeGraph.Error
import TypeGraph.Graph.Basic

/-!
# Views

A view is a live type whose kind was checked to lie in a family. The families are the single
derived kinds and three unions of them.
-/

namespace TypeGraph

/-- A family of kinds. -/
inductive Family where
  | derived
  | integer
  | function
  | struct
  | array
  | vector
  | pointer
  | placeholder
  | composite
  | sequential
deriving DecidableEq, Repr

namespace Family

def all : List Family :=
  [derived, integer, function, struct, array, vector, pointer, placeholder, composite, sequential]

def name : Family → String
  | derived => "derived"
  | integer => "integer"
  | function => "function"
  | struct => "struct"
  | array => "array"
  | vector => "vector"
  | pointer => "pointer"
  | placeholder => "opaque"
  | composite => "composite"
  | sequential => "sequential"

/-- The family of that name. -/
def ofName? (s : String) : Option Family := all.find? (·.name == s)

/-- The name with a capital. -/
def title (f : Family) : String := f.name.capitalize

/-- The families as sets of kinds. -/
def admits : Family → Kind → Bool
  | derived, k => k.isDerived
  | integer, k => k = .integer
  | function, k => k = .function
  | struct, k => k = .struct
  | array, k => k = .array
  | vector, k => k = .vector
  | pointer, k => k = .pointer
  | placeholder, k => k = .placeholder
  | composite, k => k.isComposite
  | sequential, k => k.isSequential

end Family

/-- A live type as a member of a family. -/
structure View where
  family : Family
  handle : Handle
deriving DecidableEq, Repr

/-- The spelling in diagnostics, such as `StructType(Idx(12))`. -/
def View.debug (v : View) : String := v.family.title ++ "Type(" ++ v.handle.debug ++ ")"

/-- A type by its kind: a scalar, or a view of the derived kind. -/
inductive Classified where
  | primitive (p : Primitive)
  | derived (v : View)
deriving DecidableEq, Repr

/-- The spelling in diagnostics, such as `Integer(IntegerType(Idx(i8)))`. -/
def Classified.debug : Classified → String
  | primitive p => "Primitive(" ++ (Kind.primitive p).debug ++ ")"
  | derived v => v.family.title ++ "(" ++ v.debug ++ ")"

namespace Graph

/-- Whether a type can be viewed in a family. -/
def isIn (g : Graph) (f : Family) (h : Handle) : Bool := f.admits (g.kind h)

/-- The view of a type in a family that admits it. -/
def view? (g : Graph) (f : Family) (h : Handle) : Option View :=
  if g.isIn f h then some ⟨f, g.resolve h⟩ else none

/-- The view of a type in a family that must admit it. -/
def cast (g : Graph) (f : Family) (h : Handle) : Except Fault View :=
  match g.view? f h with
  | some v => .ok v
  | none => .error (.wrongKind h (g.kind h))

/-- The type by its kind. -/
def classify (g : Graph) (h : Handle) : Classified :=
  let view f : Classified := .derived ⟨f, g.resolve h⟩
  match g.kind h with
  | .primitive p => .primitive p
  | .integer => view .integer
  | .function => view .function
  | .struct => view .struct
  | .array => view .array
  | .vector => view .vector
  | .pointer => view .pointer
  | .placeholder => view .placeholder

end Graph

end TypeGraph
