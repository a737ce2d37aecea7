import TypeGraph.Graph.Basic

/-!
# Structural matching

Two types match when their unfoldings agree and the agreement can be read as a function: a type on
the left side meets one partner only. A pair under comparison is taken to match, so cycles of one
form match each other. Scalars, integers and placeholders match themselves alone.
-/

namespace TypeGraph

/-- Whether two different nodes can match, as far as their heads show. -/
def Node.alike (n m : Node) : Bool :=
  n.kind.isUniqued && n.kind != .integer && n.shape = m.shape &&
    n.slots.length == m.slots.length

theorem count_none_setIfInBounds_lt {partners : Array (Option Handle)} {i : Nat} {h : Handle}
    (hi : partners[i]? = some none) :
    (partners.setIfInBounds i (some h)).count none < partners.count none := by
  obtain ⟨hlt, hv⟩ := Array.getElem?_eq_some_iff.1 hi
  have hpos : 0 < partners.count none := Array.count_pos_iff.2 (Array.mem_of_getElem? hi)
  simp only [Array.setIfInBounds, hlt, ↓reduceDIte]
  rw [Array.count_set, if_pos (by rw [hv]; rfl), if_neg (by simp)]
  omega

namespace Graph

/-- Whether all pairs match, given the partner that each left type met so far. -/
def matchPairs (g : Graph) (partners : Array (Option Handle)) (pairs : List (Handle × Handle)) :
    Bool :=
  match pairs with
  | [] => true
  | (a, b) :: rest =>
    let x := g.resolve a
    let y := g.resolve b
    if x = y then
      g.matchPairs partners rest
    else if (g.node x).alike (g.node y) then
      if partners[x.index]? = some none then
        g.matchPairs (partners.setIfInBounds x.index (some y))
          ((g.node x).slots.zip (g.node y).slots ++ rest)
      else
        partners[x.index]? = some (some y) && g.matchPairs partners rest
    else
      false
termination_by (partners.count none, pairs.length)
decreasing_by
  · exact Prod.Lex.right _ (Nat.lt_succ_self _)
  · exact Prod.Lex.left _ _ (count_none_setIfInBounds_lt ‹_›)
  · exact Prod.Lex.right _ (Nat.lt_succ_self _)

/-- Whether two types match. -/
def typesMatch (g : Graph) (a b : Handle) : Bool :=
  g.matchPairs (Array.replicate g.size none) [(a, b)]

end Graph

end TypeGraph
