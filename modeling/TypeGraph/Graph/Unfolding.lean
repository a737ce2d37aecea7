import TypeGraph.Term
import TypeGraph.Graph.Basic

/-!
# Unfolding

The term of a type follows its slots until it meets a type that it is inside of. Each type on the
way in is a new one, so the arena bounds the depth.
-/

namespace TypeGraph

theorem length_filter_notMem_cons_lt {α : Type} [DecidableEq α] {l enclosing : List α} {a : α}
    (hl : a ∈ l) (ha : a ∉ enclosing) :
    (l.filter (· ∉ a :: enclosing)).length < (l.filter (· ∉ enclosing)).length := by
  have h : l.filter (· ∉ a :: enclosing) = (l.filter (· ∉ enclosing)).filter (· ≠ a) := by
    rw [List.filter_filter]
    congr 1
    funext b
    simp
  rw [h]
  exact List.length_filter_lt_length_iff_exists.2 ⟨a, by simp [hl, ha], by simp⟩

namespace Graph

theorem mem_handles {g : Graph} {h : Handle} : h ∈ g.handles ↔ h.index < g.size := by
  unfold handles
  simp only [List.mem_map, List.mem_range]
  exact ⟨by rintro ⟨i, hi, rfl⟩; exact hi, fun hi => ⟨h.index, hi, rfl⟩⟩

/-- The term of a type inside the given live types, the innermost first. -/
def unfoldUnder (g : Graph) (enclosing : List Handle) (h : Handle) : Term :=
  let r := g.resolve h
  if r ∈ enclosing then
    .up (enclosing.idxOf r + 1)
  else if r.index < g.size then
    .node (g.node r).shape ((g.node r).slots.map fun s => g.unfoldUnder (r :: enclosing) s)
  else
    .node (g.node r).shape []
termination_by (g.handles.filter (· ∉ enclosing)).length
decreasing_by exact length_filter_notMem_cons_lt (mem_handles.2 ‹_›) ‹_›

/-- The term of a type. -/
def unfolding (g : Graph) (h : Handle) : Term := g.unfoldUnder [] h

/-- The text of a type. -/
def text (g : Graph) (h : Handle) : String := (g.unfolding h).text

/-- The handle as given, with the text of its type. -/
def typeDebug (g : Graph) (h : Handle) : String := h.debug ++ " = " ++ g.text h

end Graph

end TypeGraph
