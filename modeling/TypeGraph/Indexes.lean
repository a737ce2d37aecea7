import Mathlib.Data.List.Nodup
import TypeGraph.Registry

/-!
# The maps behind the registry

A registry keeps what it holds in four hash maps. Two find a type by its key, one for each table.
One finds the entry of a type. The last finds the types whose key has a given hash, in order of
registration; the hash is taken of everything but the identity of the components, so that types of
one outline come together even where their keys differ.
-/

namespace TypeGraph

deriving instance Hashable for Handle, Primitive, Attributes, Shape, Key

/-- A number as a hasher is fed it, of its own width. -/
inductive Datum where
  | byte (n : UInt8)
  | half (n : UInt16)
  | word (n : UInt32)
  | long (n : UInt64)
  /-- A length. -/
  | size (n : Nat)
deriving DecidableEq, Repr

namespace Key

/-- The keys by which types are uniqued: a form for each uniqued kind. -/
inductive Structural : Key → Prop
  | integer (bits : UInt32) : Structural (integer bits)
  | function (ret : Handle) (params : List Handle) (varargs : Bool) (attrs : List Attributes) :
      Structural (function ret params varargs attrs)
  | struct (fields : List Handle) (packed : Bool) : Structural (struct fields packed)
  | array (elem : Handle) (len : UInt64) : Structural (array elem len)
  | vector (elem : Handle) (len : UInt32) : Structural (vector elem len)
  | pointer (elem : Handle) : Structural (pointer elem)

/-- What a hasher is fed for a key: the kind, and all else but the components. -/
def fed (k : Key) : List Datum :=
  .byte k.kind.code ::
    match k.shape with
    | .integer bits => [.word bits]
    | .function varargs attrs =>
      [.size k.parts.tail.length, .byte varargs.toUInt8, .size attrs.length] ++
        attrs.map fun a => .half a.bits
    | .struct packed => [.size k.parts.length, .byte packed.toUInt8]
    | .array len => [.long len]
    | .vector len => [.word len]
    | .pointer | .primitive _ | .placeholder => []

/-- Whether two keys of one kind agree in what is not a component. -/
def sameShape (a b : Key) : Bool :=
  match a.shape, b.shape with
  | .integer m, .integer n => m == n
  | .function va aa, .function vb ab =>
    a.parts.tail.length == b.parts.tail.length && va == vb && aa == ab
  | .struct pa, .struct pb => a.parts.length == b.parts.length && pa == pb
  | .array m, .array n => m == n
  | .vector m, .vector n => m == n
  | .pointer, .pointer => true
  | _, _ => false

end Key

/-- The registered types by their keys in each table, by their handles, and by hash. -/
structure Indexes where
  canonical : Std.HashMap Key Handle
  provisional : Std.HashMap Key Handle
  /-- The key of each registered type, and the table that it stands in. -/
  entries : Std.HashMap Handle (Key × Table)
  /-- No list is empty. -/
  byShape : Std.HashMap UInt64 (List Handle)

namespace Indexes

def empty : Indexes := ⟨∅, ∅, ∅, ∅⟩

def table (x : Indexes) : Table → Std.HashMap Key Handle
  | .canonical => x.canonical
  | .provisional => x.provisional

def setTable (x : Indexes) (t : Table) (m : Std.HashMap Key Handle) : Indexes :=
  match t with
  | .canonical => { x with canonical := m }
  | .provisional => { x with provisional := m }

/-- The instance under a key; a canonical one wins. -/
def lookup (x : Indexes) (k : Key) : Option Handle := x.canonical[k]? <|> x.provisional[k]?

/-- The key under which a type is registered. -/
def keyOf? (x : Indexes) (h : Handle) : Option Key := x.entries[h]?.map Prod.fst

/-- The table in which a type is registered. -/
def tableOf? (x : Indexes) (h : Handle) : Option Table := x.entries[h]?.map Prod.snd

/-- The number of entries in a table. -/
def count (x : Indexes) (t : Table) : Nat := (x.table t).size

/-- The registered types whose key has a hash. -/
def candidates (x : Indexes) (code : UInt64) : List Handle := x.byShape[code]?.getD []

/-! ## Changes

The hash is a function of what the hasher is fed. -/

variable (hash : List Datum → UInt64)

/-- Registers a type. The caller has checked that neither the key nor the type is registered. -/
def insert (x : Indexes) (h : Handle) (k : Key) (t : Table) : Indexes :=
  { x.setTable t ((x.table t).insert k h) with
    byShape := x.byShape.alter (hash k.fed) fun bucket => some (bucket.getD [] ++ [h])
    entries := x.entries.insert h (k, t) }

/-- Unregisters a type, and gives the key under which it was registered. -/
def remove (x : Indexes) (h : Handle) : Indexes × Option Key :=
  match x.entries[h]? with
  | none => (x, none)
  | some (k, t) =>
    ({ x.setTable t (if (x.table t)[k]? = some h then (x.table t).erase k else x.table t) with
        entries := x.entries.erase h
        byShape := x.byShape.alter (hash k.fed) fun bucket =>
          (bucket.map (·.filter (· ≠ h))).filter (· ≠ []) },
      some k)

/-- Moves the entry of a type to the canonical table. If another instance already has the key
there, that instance is the error, and nothing changes. -/
def promote (x : Indexes) (h : Handle) : Except Handle Indexes :=
  match x.entries[h]? with
  | some (k, .provisional) =>
    match x.canonical[k]? with
    | some other => .error other
    | none =>
      .ok { x with
        provisional := x.provisional.erase k
        canonical := x.canonical.insert k h
        entries := x.entries.insert h (k, .canonical) }
  | _ => .ok x

/-- The types that the hash of a key offers and whose keys agree with it outside the components. -/
def alike (x : Indexes) (k : Key) : List Handle :=
  (x.candidates (hash k.fed)).filter fun h => (x.keyOf? h).any (·.sameShape k)

end Indexes

/-- A change of a registry. No other key is ever registered than a structural one. -/
inductive Change where
  | insert (h : Handle) (k : Key) (t : Table) (structural : k.Structural)
  | remove (h : Handle)
  | promote (h : Handle)

/-- Makes a change. Registering a type fails an assertion if the key or the type is registered. -/
def Indexes.change? (hash : List Datum → UInt64) (x : Indexes) : Change → Option Indexes
  | .insert h k t _ =>
    if x.lookup k = none ∧ h ∉ x.entries then some (x.insert hash h k t) else none
  | .remove h => some (x.remove hash h).1
  | .promote h =>
    match x.promote h with
    | .ok x' => some x'
    | .error _ => some x

/-- The maps after some changes, if no assertion fails. -/
def Indexes.after? (hash : List Datum → UInt64) (changes : List Change) : Option Indexes :=
  changes.foldlM (change? hash) empty

/-- Whether a change registers neither a key nor a type a second time. -/
def Registry.admits (r : Registry) : Change → Bool
  | .insert h k _ _ => r.lookup k = none ∧ r.entry? h = none
  | .remove _ | .promote _ => true

/-- Makes a change of the entries. -/
def Registry.change (r : Registry) : Change → Registry
  | .insert h k t _ => r.insert h k t
  | .remove h => r.remove h
  | .promote h =>
    match r.promote h with
    | .ok r' => r'
    | .error _ => r

/-- Whether each change is admitted where it is made. -/
def Registry.admitsAll : Registry → List Change → Bool
  | _, [] => true
  | r, c :: rest => r.admits c && (r.change c).admitsAll rest

/-- The entries after some changes, in order of registration. -/
def Registry.after (changes : List Change) : Registry := changes.foldl change empty

end TypeGraph
