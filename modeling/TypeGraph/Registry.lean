import TypeGraph.Key

/-!
# The uniquing registry

The registry knows the one instance of each structural key. Keys of concrete types are canonical
and final; keys of abstract types are provisional, since refinement can still change them. Entries
stand in order of registration, and that is also the order in which candidates of one outline are
offered.
-/

namespace TypeGraph

/-- Whether an entry is final. -/
inductive Table where
  | canonical
  | provisional
deriving DecidableEq, Repr

/-- One registered type. -/
structure Entry where
  handle : Handle
  key : Key
  table : Table
deriving DecidableEq, Repr

/-- The registered types in order of registration. -/
structure Registry where
  entries : List Entry
deriving Repr

namespace Registry

def empty : Registry := ⟨[]⟩

instance : Inhabited Registry := ⟨empty⟩

/-- The instance under a key in one table. -/
def lookupIn (r : Registry) (t : Table) (k : Key) : Option Handle :=
  (r.entries.find? fun e => e.table = t ∧ e.key = k).map Entry.handle

/-- The instance under a key; a canonical one wins. -/
def lookup (r : Registry) (k : Key) : Option Handle :=
  r.lookupIn .canonical k <|> r.lookupIn .provisional k

/-- The entry of a registered type. -/
def entry? (r : Registry) (h : Handle) : Option Entry := r.entries.find? (·.handle = h)

/-- The key under which a type is registered. -/
def keyOf? (r : Registry) (h : Handle) : Option Key := (r.entry? h).map Entry.key

/-- The table in which a type is registered. -/
def tableOf? (r : Registry) (h : Handle) : Option Table := (r.entry? h).map Entry.table

/-- Registers a type behind all others. The caller has checked that neither the key nor the type
is registered. -/
def insert (r : Registry) (h : Handle) (k : Key) (t : Table) : Registry :=
  ⟨r.entries ++ [⟨h, k, t⟩]⟩

/-- Unregisters a type. -/
def remove (r : Registry) (h : Handle) : Registry := ⟨r.entries.filter (·.handle ≠ h)⟩

/-- Makes the entry of a type canonical, in its place. If another instance already has the key
there, that instance is the error. -/
def promote (r : Registry) (h : Handle) : Except Handle Registry :=
  match r.entry? h with
  | some ⟨_, k, .provisional⟩ =>
    match r.lookupIn .canonical k with
    | some other => .error other
    | none =>
      .ok ⟨r.entries.map fun e => if e.handle = h then { e with table := .canonical } else e⟩
  | _ => .ok r

/-- The registered types of one outline in order of registration. -/
def candidates (r : Registry) (outline : Shape × Nat) : List Handle :=
  (r.entries.filter (·.key.outline = outline)).map Entry.handle

/-- The number of entries in a table. -/
def count (r : Registry) (t : Table) : Nat := r.entries.countP (·.table = t)

end Registry

end TypeGraph
