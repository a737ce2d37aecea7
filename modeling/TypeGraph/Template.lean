import TypeGraph.Request

/-!
# Templates

A template is a type written out over types that are there, with holes in it. It is built from the
inside out by the factories, with one type for all holes.
-/

namespace TypeGraph

/-- A type written out, with holes. -/
inductive Template where
  /-- A type that is there. -/
  | leaf (h : Handle)
  | hole
  | node (shape : Shape) (parts : List Template)
deriving Repr

/-- Whether the template asks a factory for its type. -/
def Template.isNode : Template → Bool
  | node _ _ => true
  | leaf _ | hole => false

namespace Graph

/-- The type that an action makes, and the graph then; none if it fails or makes no type. -/
def make? (g : Graph) (a : Action) : Option (Handle × Graph) :=
  match g.perform a with
  | .ok ⟨g', .made h, _⟩ => some (h, g')
  | _ => none

mutual

/-- Builds the type of a template, with a given type for each hole. -/
def build (g : Graph) (fill : Handle) : Template → Option (Handle × Graph)
  | .leaf h => some (h, g)
  | .hole => some (fill, g)
  | .node shape parts =>
    match g.buildAll fill parts with
    | some (hs, g') => (shape.call? hs).bind g'.make?
    | none => none

/-- Builds the types of a list of templates in order. -/
def buildAll (g : Graph) (fill : Handle) : List Template → Option (List Handle × Graph)
  | [] => some ([], g)
  | t :: ts =>
    match g.build fill t with
    | some (h, g') =>
      match g'.buildAll fill ts with
      | some (hs, g'') => some (h :: hs, g'')
      | none => none
    | none => none

end

end Graph

end TypeGraph
