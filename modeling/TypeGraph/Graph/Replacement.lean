import TypeGraph.Error
import TypeGraph.Graph.Matching
import TypeGraph.Graph.Measure
import TypeGraph.Traversal

/-!
# Replacing one type by another

The single changes that a refinement is made of: a type is retired, the slots that held it move to
its replacement, and a type whose slots moved looks for another of its new structure. None of them
makes a type abstract.

A type that was refined into something that holds it reaches itself. One step goes from a node to
the live type of one of its slots, and only a type that some steps lead back to is compared with
others by structure.
-/

namespace TypeGraph.Graph

/-! ## Cycles through slots -/

/-- The live types of the slots of a node. -/
def targets (g : Graph) (h : Handle) : List Handle := (g.node h).slots.map g.resolve

/-- Whether one or more steps lead from a live type back to it. -/
def onCycle (g : Graph) (h : Handle) : Bool :=
  (reachFrom g.size g.targets (g.targets h)).contains h

/-! ## The changes -/

/-- Retires a type: it forwards to its replacement, leaves the registry and gives up its slots. -/
def retire (g : Graph) (old new : Handle) : Graph :=
  let cut := g.update old fun n => { n with slots := [], isAbstract := false, forward := some new }
  (g.node old).slots.foldl (fun g s => g.release old s)
    { cut with registry := cut.registry.remove old }

/-- Moves every slot of `owner` that holds `old` to `new`. -/
def retarget (g : Graph) (owner old new : Handle) : Graph :=
  (g.node owner).slots.foldl
    (fun g s => if s = old then (g.release owner old).acquire owner new else g)
    (g.update owner fun n => { n with slots := n.slots.map fun s => if s = old then new else s })

/-- Takes a type out of the registry. -/
def unregister (g : Graph) (h : Handle) : Graph := { g with registry := g.registry.remove h }

/-- The key of a node of a uniqued kind, as its slots are now. -/
def keyOfNode (g : Graph) (h : Handle) : Except Fault Key :=
  let n := g.node h
  if !n.kind.isUniqued then .error (.noKey h n.kind)
  else if n.slots.length < n.shape.minParts then .error (.outOfBounds n.slots.length 0)
  else .ok n.key

/-- Registers an abstract type. Neither it nor its key may be registered. -/
def registerProvisional (g : Graph) (h : Handle) (k : Key) : Except Fault Graph :=
  if (g.registry.lookup k).isSome then .error .duplicateKey
  else if (g.registry.entry? h).isSome then .error (.registeredTwice h)
  else .ok { g with registry := g.registry.insert h k .provisional }

/-- A registered type other than `owner` of the same structure: the instance of its key, or if
`owner` is on a cycle the first candidate that matches it. -/
def equivalent? (g : Graph) (owner : Handle) (k : Key) : Option Handle :=
  (g.registry.lookup k).filter (· ≠ owner) <|>
    if g.onCycle owner then
      (g.registry.candidates k.outline).find? fun c => c ≠ owner && g.typesMatch owner c
    else
      none

theorem abstractCount_retire_lt {g : Graph} {old new : Handle} (h : (g.node old).isAbstract) :
    (g.retire old new).abstractCount < g.abstractCount := by
  refine Nat.lt_of_le_of_lt
    (abstractCount_foldl_le (fun g s => g.abstractCount_release_le old s) _ _) ?_
  exact abstractCount_update_lt (f := fun n =>
    { n with slots := [], isAbstract := false, forward := some new }) h (by simp)

theorem abstractCount_retarget_le (g : Graph) (owner old new : Handle) :
    (g.retarget owner old new).abstractCount ≤ g.abstractCount := by
  refine Nat.le_trans (abstractCount_foldl_le (fun g s => ?_) _ _)
    (g.abstractCount_update_le owner fun _ => id)
  split
  · exact Nat.le_trans (abstractCount_acquire_le _ _ _) (g.abstractCount_release_le owner old)
  · exact Nat.le_refl _

theorem abstractCount_registerProvisional {g g' : Graph} {h : Handle} {k : Key}
    (hr : g.registerProvisional h k = .ok g') : g'.abstractCount = g.abstractCount := by
  unfold registerProvisional at hr
  split at hr
  · cases hr
  · split at hr
    · cases hr
    · cases hr
      rfl

end TypeGraph.Graph
