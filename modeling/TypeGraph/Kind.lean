/-!
# Kinds of types

The closed set of kinds. Every type has one, and each family of kinds is a test on it.
-/

namespace TypeGraph

/-- The scalars that are not built by a factory. -/
inductive Primitive where
  | void
  | float
  | double
  | label
deriving DecidableEq, Repr, Inhabited

def Primitive.name : Primitive → String
  | void => "void"
  | float => "float"
  | double => "double"
  | label => "label"

/-- What a type is at its head. -/
inductive Kind where
  | primitive (p : Primitive)
  | integer
  | function
  | struct
  | array
  | vector
  | pointer
  /-- A forward declaration, to be refined to another type. -/
  | placeholder
deriving DecidableEq, Repr

namespace Kind

/-- Every kind, in the order of the codes. -/
def all : List Kind :=
  [primitive .void, primitive .float, primitive .double, primitive .label, integer, function,
    struct, array, vector, pointer, placeholder]

/-- The code groups the kinds in blocks of sixteen: scalars, integers, functions, composites,
placeholders. -/
def code : Kind → UInt8
  | primitive .void => 0
  | primitive .float => 1
  | primitive .double => 2
  | primitive .label => 3
  | integer => 16
  | function => 32
  | struct => 48
  | array => 49
  | vector => 50
  | pointer => 51
  | placeholder => 64

def name : Kind → String
  | primitive p => p.name
  | integer => "integer"
  | function => "function"
  | struct => "struct"
  | array => "array"
  | vector => "vector"
  | pointer => "pointer"
  | placeholder => "opaque"

/-- The kind of that name. -/
def ofName? (s : String) : Option Kind := all.find? (·.name == s)

/-- The spelling in diagnostics. -/
def debug (k : Kind) : String := "Tag::" ++ k.name

def isPrimitive : Kind → Bool
  | primitive _ => true
  | _ => false

/-- Everything but the scalars. -/
def isDerived (k : Kind) : Bool := !k.isPrimitive

/-- Arrays, vectors and pointers: one element type, repeated in memory. -/
def isSequential : Kind → Bool
  | array | vector | pointer => true
  | _ => false

/-- The kinds that can be indexed into. -/
def isComposite : Kind → Bool
  | struct => true
  | k => k.isSequential

/-- The kinds whose values an instruction can produce. -/
def isFirstClass : Kind → Bool
  | primitive .void | function | struct | array | placeholder => false
  | _ => true

/-- The kinds with one instance for each structure. -/
def isUniqued : Kind → Bool
  | primitive _ | placeholder => false
  | _ => true

/-- The kinds a vector can hold. -/
def isVectorElement : Kind → Bool
  | integer | primitive .float | primitive .double => true
  | _ => false

end Kind

end TypeGraph
