import TypeGraph.Graph.Basic

/-!
# Printed texts

What a type is printed as, inside the types that are being printed around it. These stand on a
stack, the innermost first, and so `\1` is the innermost of them.

`Printed` says it form by form, without regard to how a text is made. A `Writer` makes it piece by
piece: it adds to an output, and puts a type on the stack while the components are written.
-/

namespace TypeGraph

/-! ## The forms of texts -/

/-- What a shape is printed as round the texts of its components. -/
inductive Shape.Printed : Shape → List String → String → Prop where
  | primitive (p : Primitive) : Printed (.primitive p) [] p.name
  | integer (bits : UInt32) : Printed (.integer bits) [] ("i" ++ toString bits)
  /-- The returned type comes first. The parameters are numbered from one, and each is followed by
  the attributes of its number. -/
  | function (varargs : Bool) (attrs : List Attributes) (ret : String) (params : List String) :
      Printed (.function varargs attrs) (ret :: params)
        (ret ++ " (" ++ ", ".intercalate
            (((params.zipIdx 1).map fun p => p.1 ++ (Attributes.entry attrs p.2).suffix) ++
              if varargs then ["..."] else []) ++
          ")" ++ (Attributes.entry attrs 0).suffix)
  | unit : Printed (.struct false) [] "\x7b\x7d"
  | struct (field : String) (fields : List String) :
      Printed (.struct false) (field :: fields)
        ("\x7b " ++ ", ".intercalate (field :: fields) ++ " \x7d")
  | packed {fields : List String} {text : String} (h : Printed (.struct false) fields text) :
      Printed (.struct true) fields ("<" ++ text ++ ">")
  | array (len : UInt64) (elem : String) :
      Printed (.array len) [elem] ("[" ++ toString len ++ " x " ++ elem ++ "]")
  | vector (len : UInt32) (elem : String) :
      Printed (.vector len) [elem] ("<" ++ toString len ++ " x " ++ elem ++ ">")
  | pointer (elem : String) : Printed .pointer [elem] (elem ++ "*")
  | placeholder : Printed .placeholder [] "opaque"

/-- What a handle is printed as inside the types of a stack. -/
inductive Graph.Printed (g : Graph) : List Handle → String → Handle → Prop where
  /-- The number of an up-reference is no more than the depth, and it counts up to the live type of
  the handle. -/
  | up {stack : List Handle} {n : Nat} {h : Handle} (hpos : 1 ≤ n) (hle : n ≤ stack.length)
      (hn : stack[n - 1]? = some (g.resolve h)) : Printed g stack ("\\" ++ toString n) h
  /-- A type that is not on the stack is printed by its shape, and its components inside it. -/
  | node {stack : List Handle} {h : Handle} {parts : List String} {text : String}
      (hnew : g.resolve h ∉ stack)
      (hlength : parts.length = (g.node (g.resolve h)).slots.length)
      (hparts : ∀ p s, (p, s) ∈ parts.zip (g.node (g.resolve h)).slots →
        Printed g (g.resolve h :: stack) p s)
      (htext : (g.node (g.resolve h)).shape.Printed parts text) : Printed g stack text h

/-! ## Writers -/

/-- Adds to an output, inside the types of a stack. It stops short where a component is missing. -/
abbrev Writer := StateT (String × List Handle) Option Unit

namespace Writer

def text (s : String) : Writer := modify fun (out, stack) => (out ++ s, stack)

/-- Writes inside a type. -/
def inside (r : Handle) (w : Writer) : Writer := do
  modify fun (out, stack) => (out, r :: stack)
  w
  modify fun (out, stack) => (out, stack.tail)

/-- Writes items one after the other, the first behind a text of its own and the others behind
commas. -/
def each {α : Type} (write : α → Writer) : String → List α → Writer
  | _, [] => pure ()
  | before, a :: rest => do
    text before
    write a
    each write ", " rest

/-- Writes fields between braces. -/
def braced (write : Handle → Writer) (fields : List Handle) : Writer := do
  text "\x7b"
  each write " " fields
  text (if fields.isEmpty then "\x7d" else " \x7d")

/-- Writes parameters with their attributes, and the dots if there can be more. -/
def listed (write : Handle → Writer) (varargs : Bool) (attrs : List Attributes)
    (params : List Handle) : Writer := do
  each (fun p => do write p.1; text (Attributes.entry attrs p.2).suffix) "" (params.zipIdx 1)
  text (if varargs then if params.isEmpty then "..." else ", ..." else "")

/-- Writes a shape round its components. -/
def shape (write : Handle → Writer) : Shape → List Handle → Writer
  | .primitive p, _ => text p.name
  | .integer bits, _ => text ("i" ++ toString bits)
  | .placeholder, _ => text "opaque"
  | .pointer, [elem] => do
    write elem
    text "*"
  | .array len, [elem] => do
    text ("[" ++ toString len ++ " x ")
    write elem
    text "]"
  | .vector len, [elem] => do
    text ("<" ++ toString len ++ " x ")
    write elem
    text ">"
  | .struct packed, fields => do
    text (if packed then "<" else "")
    braced write fields
    text (if packed then ">" else "")
  | .function varargs attrs, ret :: params => do
    write ret
    text " ("
    listed write varargs attrs params
    text ")"
    text (Attributes.entry attrs 0).suffix
  | _, _ => failure

/-! ## What writers write -/

/-- Inside the types of the stack the writer adds the text, whatever is written before it, and
leaves the stack as it was. -/
def Writes (w : Writer) (stack : List Handle) (s : String) : Prop :=
  ∀ out, w.run (out, stack) = some ((), out ++ s, stack)

variable {α : Type} {w w' : Writer} {stack : List Handle} {s s' before : String} {as : List α}
  {write : α → Writer} {t : α → String}

theorem writes_text (stack : List Handle) (s : String) : (text s).Writes stack s := fun _ => rfl

theorem writes_nil (write : α → Writer) (before : String) (stack : List Handle) :
    (each write before []).Writes stack "" := by
  intro out
  rw [String.append_empty]
  rfl

theorem Writes.seq (h : w.Writes stack s) (h' : w'.Writes stack s') :
    Writes (do w; w') stack (s ++ s') := by
  intro out
  show (w.run (out, stack)).bind (fun r => w'.run r.2) = _
  rw [h, Option.bind_some, h', String.append_assoc]

theorem Writes.between (h : w.Writes stack s) (before after : String) :
    Writes (do text before; w; text after) stack (before ++ s ++ after) := by
  rw [String.append_assoc]
  exact (writes_text stack before).seq (h.seq (writes_text stack after))

theorem Writes.inside {r : Handle} (h : w.Writes (r :: stack) s) :
    (Writer.inside r w).Writes stack s := by
  intro out
  show (w.run (out, r :: stack)).bind _ = _
  rw [h]
  rfl

/-- Items that each write a text are written with commas between them. -/
theorem writes_each (hne : as ≠ []) (h : ∀ a ∈ as, (write a).Writes stack (t a)) :
    (each write before as).Writes stack (before ++ ", ".intercalate (as.map t)) := by
  induction as generalizing before with
  | nil => exact absurd rfl hne
  | cons a as ih =>
    obtain ⟨ha, has⟩ := List.forall_mem_cons.1 h
    cases as with
    | nil =>
      rw [List.map_singleton, String.intercalate_singleton, ← @String.append_empty (t a)]
      exact (writes_text stack before).seq (ha.seq (writes_nil write ", " stack))
    | cons b as =>
      have hrest : (each write ", " (b :: as)).Writes stack _ := ih (List.cons_ne_nil b as) has
      rw [List.map_cons, List.map_cons, String.intercalate_cons_cons, String.append_assoc]
      exact (writes_text stack before).seq (ha.seq hrest)

theorem writes_list (h : ∀ a ∈ as, (write a).Writes stack (t a)) :
    (each write "" as).Writes stack (", ".intercalate (as.map t)) := by
  cases as with
  | nil => exact writes_nil write "" stack
  | cons a as =>
    rw [← @String.empty_append (", ".intercalate _)]
    exact writes_each (List.cons_ne_nil a as) h

end Writer

end TypeGraph
