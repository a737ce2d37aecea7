import TypeGraph.Handle

/-!
# Depth-first traversal

`visit` walks a finite graph from a stack of handles, the top of the stack first in the list. Each
mark says whether the handle of its place was visited; a handle without a mark is passed over. The
walk ends because each visit sets a mark and all other steps only shorten the stack.
-/

namespace TypeGraph

theorem count_false_setIfInBounds_lt {marks : Array Bool} {i : Nat} (h : marks[i]? = some false) :
    (marks.setIfInBounds i true).count false < marks.count false := by
  obtain ⟨hi, hv⟩ := Array.getElem?_eq_some_iff.1 h
  have hpos : 0 < marks.count false := Array.count_pos_iff.2 (Array.mem_of_getElem? h)
  simp only [Array.setIfInBounds, hi, ↓reduceDIte]
  rw [Array.count_set, if_pos (by rw [hv]; rfl), if_neg (by decide)]
  omega

/-- The handles met from the stack, each once, in the order of the visit. The successors of a
handle are pushed in order, so that the last of them is visited first. -/
def visit (next : Handle → List Handle) (marks : Array Bool) (stack : List Handle) : List Handle :=
  match stack with
  | [] => []
  | h :: rest =>
    if marks[h.index]? = some false then
      h :: visit next (marks.setIfInBounds h.index true) ((next h).reverse ++ rest)
    else
      visit next marks rest
termination_by (marks.count false, stack.length)
decreasing_by
  · exact Prod.Lex.left _ _ (count_false_setIfInBounds_lt ‹_›)
  · exact Prod.Lex.right _ (Nat.lt_succ_self _)

/-- The handles below `size` that can be reached from the starts, the starts included. -/
def reachFrom (size : Nat) (next : Handle → List Handle) (starts : List Handle) : List Handle :=
  visit next (Array.replicate size false) starts

end TypeGraph
