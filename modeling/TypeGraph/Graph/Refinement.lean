import TypeGraph.Graph.Agenda

/-!
# Refinement

Refinement replaces an abstract type everywhere and retires it. The replacement may hold the type
itself: that is how recursive types are made. The agenda is worked off to its end, which
`step_nearer` brings.
-/

namespace TypeGraph.Graph

/-- An outcome that is nearer to the end is below the graph and the agenda that it came from. -/
theorem Nearer.lex {g : Graph} {w : Nat} {out : Outcome} (h : g.Nearer w out) (rest : List Task) :
    Prod.Lex (· < ·) (· < ·) (out.graph.abstractCount, weight (out.tasks ++ rest))
      (g.abstractCount, w + weight rest) := by
  rw [weight_append]
  rcases h with h | ⟨hle, hw⟩
  · exact Prod.Lex.left _ _ h
  · rcases Nat.lt_or_eq_of_le hle with h | h
    · exact Prod.Lex.left _ _ h
    · rw [h]
      exact Prod.Lex.right _ (Nat.add_lt_add_right hw _)

/-- Works off an agenda, given what listeners heard so far. -/
def run (g : Graph) (agenda : List Task) (heard : List Event) : Except Fault (Graph × List Event) :=
  match agenda with
  | [] => .ok (g, heard)
  | t :: rest =>
    match t.fault? with
    | some f => .error f
    | none =>
      let out := g.step t
      out.graph.run (out.tasks ++ rest) (heard ++ out.events)
termination_by (g.abstractCount, weight agenda)
decreasing_by exact (g.step_nearer t).lex rest

/-- Replaces an abstract type everywhere by another, with what listeners hear. -/
def refine (g : Graph) (old new : Handle) : Except Fault (Graph × List Event) :=
  g.run [.refine old new] []

end TypeGraph.Graph
