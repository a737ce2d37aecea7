import TypeGraph.Handle
import TypeGraph.Kind
import TypeGraph.WideMask

/-!
# Errors

A request for a type can be refused, which is a `TypeError`. A `Fault` is a misuse of the graph by
its caller, or a broken invariant of the graph itself. Neither changes the graph.
-/

namespace TypeGraph

/-- Why a type or an element could not be given. -/
inductive TypeError where
  | invalidWidth (bits : UInt32)
  | indexOutOfRange (index : UInt64) (len : Nat)
  | notAConstant
deriving DecidableEq, Repr

def TypeError.text : TypeError → String
  | invalidWidth bits =>
    "invalid integer width " ++ toString bits ++ ": must be between " ++
      toString IntegerWidth.least ++ " and " ++ toString IntegerWidth.greatest
  | indexOutOfRange index len =>
    "struct index " ++ toString index ++ " out of range for " ++ toString len ++ " fields"
  | notAConstant => "struct index must be a constant i32"

/-- What was done that must not be done. -/
inductive Fault where
  /-- A vector of something that is neither an integer nor a float. -/
  | vectorElement (kind : Kind)
  /-- A refinement of a type that was replaced before. -/
  | alreadyRefined (h : Handle)
  /-- A refinement of a concrete type. -/
  | notAbstract (h : Handle)
  /-- A refinement of a type to itself. -/
  | selfRefinement (h : Handle)
  /-- A placeholder, which has no slots, is told of a component. -/
  | placeholderObserves (owner component : Handle)
  /-- A kind that is not uniqued is asked for its key. -/
  | noKey (h : Handle) (kind : Kind)
  /-- A key is registered a second time. -/
  | duplicateKey
  /-- A type is registered a second time. -/
  | registeredTwice (h : Handle)
  /-- All observers of a replaced type were told, yet some still hold it. -/
  | stillObserved (h : Handle)
  /-- A view of a type whose kind is outside the family. -/
  | wrongKind (h : Handle) (kind : Kind)
  /-- A field past the last one. -/
  | fieldOutOfRange (n len : Nat)
  /-- A place past the end of a list. -/
  | outOfBounds (len index : Nat)
  /-- An index that selects no element. -/
  | invalidIndex (e : TypeError)
deriving DecidableEq, Repr

def Fault.text : Fault → String
  | vectorElement k => "vector elements must be integer or floating point, found " ++ k.name
  | alreadyRefined h => "refine_abstract_type_to: " ++ h.debug ++ " has already been refined"
  | notAbstract h => "refine_abstract_type_to: " ++ h.debug ++ " is not abstract"
  | selfRefinement h =>
    "assertion `left != right` failed: refine_abstract_type_to: cannot refine a type to itself" ++
      "\n  left: " ++ h.debug ++ "\n right: " ++ h.debug
  | placeholderObserves owner component =>
    "opaque type " ++ owner.debug ++ " cannot observe " ++ component.debug ++
      ": it has no contained types"
  | noKey h k => h.debug ++ " of kind " ++ k.name ++ " has no structural key"
  | duplicateKey => "duplicate registry key"
  | registeredTwice h => h.debug ++ " registered twice"
  | stillObserved h => h.debug ++ " is still observed"
  | wrongKind h k => "cast of " ++ h.debug ++ " (" ++ k.name ++ ") to the wrong kind"
  | fieldOutOfRange n len =>
    "element " ++ toString n ++ " out of range for struct with " ++ toString len ++ " fields"
  | outOfBounds len index =>
    "index out of bounds: the len is " ++ toString len ++ " but the index is " ++ toString index
  | invalidIndex e => "type_at_index: " ++ e.text

end TypeGraph
