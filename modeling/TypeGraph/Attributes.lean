/-!
# Parameter attributes

A function type carries a list of attribute sets: entry `0` is for the returned value and entry
`i + 1` for parameter `i`. Past its end the list is read as empty sets, so two lists mean the same
when they agree once their trailing empty sets are trimmed.
-/

namespace TypeGraph

/-- A set of attributes. Bits without a name are kept: they count in equality and have no text. -/
structure Attributes where
  bits : UInt16
deriving DecidableEq, Repr

namespace Attributes

def none : Attributes := ⟨0⟩
def zeroExtended : Attributes := ⟨1⟩
def signExtended : Attributes := ⟨2⟩
def noReturn : Attributes := ⟨4⟩
def inRegister : Attributes := ⟨8⟩
/-- Marks the hidden pointer through which a structure is returned. -/
def structReturn : Attributes := ⟨16⟩

instance : Inhabited Attributes := ⟨none⟩

/-- The named attributes with their tokens, in the order of the text. -/
def tokens : List (Attributes × String) :=
  [(zeroExtended, "zext"), (signExtended, "sext"), (noReturn, "noreturn"), (inRegister, "inreg"),
    (structReturn, "sret")]

def isEmpty (a : Attributes) : Bool := a.bits == 0

/-- Every attribute of `b` is in `a`. -/
def contains (a b : Attributes) : Bool := a.bits &&& b.bits == b.bits

/-- Some attribute is in both. -/
def intersects (a b : Attributes) : Bool := a.bits &&& b.bits != 0

/-- The tokens of the named attributes in the set. -/
def words (a : Attributes) : List String :=
  (tokens.filter fun t => a.contains t.1).map Prod.snd

/-- Each token followed by a space. -/
def text (a : Attributes) : String := String.join (a.words.map (· ++ " "))

/-- The text behind a parameter: nothing for the empty set, else the tokens after a space. -/
def suffix (a : Attributes) : String :=
  if a.isEmpty then "" else " " ++ " ".intercalate a.words

/-- The list without its trailing empty sets. -/
def trim : List Attributes → List Attributes
  | [] => []
  | a :: as =>
    match trim as with
    | [] => if a.isEmpty then [] else [a]
    | rest => a :: rest

/-- Entry `i`, empty past the end. -/
def entry (as : List Attributes) (i : Nat) : Attributes := as[i]?.getD none

/-- Whether the first of `n` parameters is the hidden pointer for the returned structure. -/
def returnsThroughPointer (n : Nat) (as : List Attributes) : Bool :=
  0 < n && (entry as 1).intersects structReturn

end Attributes

end TypeGraph
