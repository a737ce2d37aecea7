import TypeGraph.History

/-!
# Scripts

A script is a list of actions. Each action of a script is performed on the graph that the ones
before it led to, also when some of them failed.
-/

namespace TypeGraph

/-- The actions that are about listeners and make or refine no type. -/
def Action.isListening : Action → Bool
  | subscribe _ | unsubscribe _ => true
  | integer _ | function _ _ _ _ | struct _ _ | array _ _ | vector _ _ | pointer _ | placeholder
  | refine _ _ => false

/-- The actions of a script that make or refine types. -/
def typesOnly (script : List Action) : List Action := script.filter fun a => !a.isListening

namespace Graph

/-- What an action answers, or why it has no answer. -/
def answer (g : Graph) (a : Action) : Except Failure Reply := (g.perform a).map Performed.reply

/-- The graph after an action. One that fails leaves it as it was. -/
def after (g : Graph) (a : Action) : Graph :=
  match g.perform a with
  | .ok p => p.graph
  | .error _ => g

/-- The graph after a script. -/
def afterAll (g : Graph) (script : List Action) : Graph := script.foldl after g

/-- What listeners are told by an action. One that fails tells nobody. -/
def heard (g : Graph) (a : Action) : List Event :=
  match g.perform a with
  | .ok p => p.events
  | .error _ => []

/-- What listeners are told by a script. -/
def heardAll (g : Graph) : List Action → List Event
  | [] => []
  | a :: script => g.heard a ++ (g.after a).heardAll script

/-- Whether each action of a script names only types that are there by then. -/
def admits (g : Graph) : List Action → Bool
  | [] => true
  | a :: script => (a.handles.all fun h => h.index < g.size) && (g.after a).admits script

variable {g : Graph} {a : Action} {script : List Action}

theorem admits_cons : g.admits (a :: script) ↔
    (∀ h ∈ a.handles, h.index < g.size) ∧ (g.after a).admits script := by
  rw [admits, Bool.and_eq_true, List.all_eq_true]
  simp only [decide_eq_true_eq]

theorem after_of_perform {p : Performed} (hp : g.perform a = .ok p) : g.after a = p.graph := by
  rw [after, hp]

theorem heard_of_perform {p : Performed} (hp : g.perform a = .ok p) : g.heard a = p.events := by
  rw [heard, hp]

theorem Reachable.after (hg : Reachable g) (ha : ∀ h ∈ a.handles, h.index < g.size) :
    Reachable (g.after a) := by
  unfold Graph.after
  split
  · next hp => exact hg.perform ha hp
  · exact hg

theorem Reachable.afterAll (hg : Reachable g) (hs : g.admits script) :
    Reachable (g.afterAll script) := by
  induction script generalizing g with
  | nil => exact hg
  | cons a script ih =>
    obtain ⟨ha, hs⟩ := admits_cons.1 hs
    exact ih (hg.after ha) hs

end Graph

end TypeGraph
