/-!
# Node flags

The state of a node as a set of bits. Only abstractness passes from a component to the type that
holds it.
-/

namespace TypeGraph

/-- A set of flags. Bits without a name are kept. -/
structure Flags where
  bits : UInt8
deriving DecidableEq, Repr

namespace Flags

def none : Flags := ⟨0⟩
/-- The type is a placeholder or holds one, however deep. -/
def abstract : Flags := ⟨1⟩
def placeholder : Flags := ⟨2⟩
/-- The type was replaced by another. -/
def retired : Flags := ⟨4⟩

instance : Inhabited Flags := ⟨none⟩

def union (a b : Flags) : Flags := ⟨a.bits ||| b.bits⟩

def inter (a b : Flags) : Flags := ⟨a.bits &&& b.bits⟩

/-- Every flag of `b` is in `a`. -/
def contains (a b : Flags) : Bool := a.bits &&& b.bits == b.bits

def isAbstract (a : Flags) : Bool := a.contains abstract

def isRetired (a : Flags) : Bool := a.contains retired

/-- The set `a` if the condition holds, else the empty set. -/
def when (b : Bool) (a : Flags) : Flags := if b then a else none

/-- What a type takes over from its components. -/
def propagate (components : List Flags) : Flags :=
  components.foldl (fun acc c => acc.union (c.inter abstract)) none

end Flags

end TypeGraph
