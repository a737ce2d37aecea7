/-!
# Handles

A handle names a type by its place in the arena. Handles stay valid for ever: one whose type was
replaced forwards to the replacement. The first nine places hold the built-in types.
-/

namespace TypeGraph

/-- The place of a type in the arena. -/
structure Handle where
  index : Nat
deriving DecidableEq, Repr, Inhabited

namespace Handle

/-- The names of the built-in types, in the order of their handles. -/
def builtinNames : List String :=
  ["void", "float", "double", "label", "i1", "i8", "i16", "i32", "i64"]

def void : Handle := ⟨0⟩
def float : Handle := ⟨1⟩
def double : Handle := ⟨2⟩
def label : Handle := ⟨3⟩
def i1 : Handle := ⟨4⟩
def i8 : Handle := ⟨5⟩
def i16 : Handle := ⟨6⟩
def i32 : Handle := ⟨7⟩
def i64 : Handle := ⟨8⟩

/-- The first handle past the built-in types. -/
def firstDerived : Handle := ⟨builtinNames.length⟩

def isBuiltin (h : Handle) : Bool := h.index < firstDerived.index

/-- The name of a built-in type. -/
def name? (h : Handle) : Option String := builtinNames[h.index]?

/-- The built-in type of that name. -/
def ofName? (name : String) : Option Handle :=
  (builtinNames.findIdx? (· == name)).map Handle.mk

/-- A built-in type by its name, any other as `type#12`. -/
def text (h : Handle) : String := h.name?.getD ("type#" ++ toString h.index)

/-- The spelling in diagnostics: `Idx(i32)`, `Idx(12)`. -/
def debug (h : Handle) : String := "Idx(" ++ h.name?.getD (toString h.index) ++ ")"

end Handle

/-- A subscription, numbered in order of subscribing. -/
structure ListenerId where
  index : Nat
deriving DecidableEq, Repr, Inhabited

def ListenerId.text (id : ListenerId) : String := "L" ++ toString id.index

end TypeGraph
