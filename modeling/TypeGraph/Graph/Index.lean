import TypeGraph.Graph.Description

/-!
# Indexing

An operand selects an element of a composite type. A structure takes a constant of type `i32` below
the number of its fields. A sequential type takes any integer, since its bounds are a concern of the
running program.
-/

namespace TypeGraph

/-- An operand: its type, and its value if it is a constant. -/
structure Operand where
  ty : Handle
  value : Option UInt64
deriving DecidableEq, Repr

namespace Graph

/-- The field of a structure that an operand selects. -/
def fieldAt (g : Graph) (h : Handle) (i : Operand) : Except TypeError Handle :=
  let fields := g.contained h
  match i.value with
  | none => .error .notAConstant
  | some value =>
    if g.resolve i.ty = .i32 then
      match fields[value.toNat]? with
      | some field => .ok field
      | none => .error (.indexOutOfRange value fields.length)
    else
      .error .notAConstant

/-- Whether the family indexes this type by its fields. A composite view asks for the kind. -/
def indexesFields (g : Graph) (v : View) : Bool :=
  match v.family with
  | .struct => true
  | .composite => g.kind v.handle = .struct
  | _ => false

/-- The type of the element that an operand selects. A sequential type has one for all operands. -/
def elementAt (g : Graph) (v : View) (i : Operand) : Except TypeError Handle :=
  if g.indexesFields v then g.fieldAt v.handle i else .ok (g.element v.handle)

/-- Whether an operand can select an element. -/
def isValidIndex (g : Graph) (v : View) (i : Operand) : Bool :=
  if g.indexesFields v then (g.fieldAt v.handle i).isOk else g.kind i.ty = .integer

/-- The type of the element that an operand must select. -/
def requireElementAt (g : Graph) (v : View) (i : Operand) : Except Fault Handle :=
  (g.elementAt v i).mapError .invalidIndex

end Graph

end TypeGraph
