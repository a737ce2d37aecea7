import TypeGraph.Key

/-!
# Type terms and their text

A term is a type written out. A type that occurs inside itself is written there as an up-reference,
which counts the terms around it from the inside: `\1` is the innermost.
-/

namespace TypeGraph

/-- A type written out. -/
inductive Term where
  /-- The `n`-th term around this one, the innermost first. -/
  | up (n : Nat)
  | node (shape : Shape) (parts : List Term)
deriving Repr

/-- The text of a list of fields between braces. -/
def bracedText : List String → String
  | [] => "\x7b\x7d"
  | fields => "\x7b " ++ ", ".intercalate fields ++ " \x7d"

/-- The parameters with their attributes, entry `i` and up of the list. -/
def paramTexts (attrs : List Attributes) : Nat → List String → List String
  | _, [] => []
  | i, p :: ps => (p ++ (Attributes.entry attrs i).suffix) :: paramTexts attrs (i + 1) ps

/-- The text of a shape around the texts of its components. -/
def Shape.text : Shape → List String → String
  | primitive p, _ => p.name
  | integer bits, _ => "i" ++ toString bits
  | function varargs attrs, parts =>
    let params := paramTexts attrs 1 (parts.drop 1)
    let listed := if varargs then params ++ ["..."] else params
    parts.headD "" ++ " (" ++ ", ".intercalate listed ++ ")" ++ (Attributes.entry attrs 0).suffix
  | struct packed, fields => if packed then "<" ++ bracedText fields ++ ">" else bracedText fields
  | array len, parts => "[" ++ toString len ++ " x " ++ parts.headD "" ++ "]"
  | vector len, parts => "<" ++ toString len ++ " x " ++ parts.headD "" ++ ">"
  | pointer, parts => parts.headD "" ++ "*"
  | placeholder, _ => "opaque"

mutual

/-- The text of a term. -/
def Term.text : Term → String
  | .up n => "\\" ++ toString n
  | .node shape parts => shape.text (Term.texts parts)

/-- The texts of the components of a term. -/
def Term.texts : List Term → List String
  | [] => []
  | t :: ts => t.text :: Term.texts ts

end

theorem Term.texts_eq_map (ts : List Term) : texts ts = ts.map text := by
  induction ts with
  | nil => rfl
  | cons t ts ih => rw [texts, ih, List.map_cons]

end TypeGraph
