import TypeGraph.Traversal

/-!
# What a traversal meets

`mem_reachFrom`: a traversal meets exactly the handles that steps from the starts lead to, and
`nodup_reachFrom`: each of them once.
-/

namespace TypeGraph

/-- Steps of `next` below `size` lead from the starts to a handle. -/
inductive Reached (size : Nat) (next : Handle → List Handle) (starts : List Handle) :
    Handle → Prop where
  | start {h : Handle} (hs : h ∈ starts) (hb : h.index < size) : Reached size next starts h
  | step {a b : Handle} (ha : Reached size next starts a) (hn : b ∈ next a) (hb : b.index < size) :
      Reached size next starts b

variable {next : Handle → List Handle} {marks : Array Bool} {stack : List Handle}

/-- Setting a mark marks one more handle. -/
theorem getElem?_setIfInBounds_true {h k : Handle} :
    (marks.setIfInBounds h.index true)[k.index]? = some true ↔
      marks[k.index]? = some true ∨ k = h ∧ k.index < marks.size := by
  rw [Array.getElem?_setIfInBounds]
  by_cases hk : h.index = k.index
  · obtain rfl : h = k := by cases h; cases k; cases hk; rfl
    by_cases hb : h.index < marks.size
    · simp [hb]
    · simp [hb]
  · have hne : k ≠ h := fun h => hk (h ▸ rfl)
    simp [hk, hne]

/-- A handle with a mark place is marked or not. -/
theorem marked_or_unmarked {h : Handle} (hb : h.index < marks.size) :
    marks[h.index]? = some true ∨ marks[h.index]? = some false := by
  rw [Array.getElem?_eq_getElem hb]
  cases marks[h.index] <;> simp

theorem of_mem_visit {P : Handle → Prop}
    (hstack : ∀ h ∈ stack, h.index < marks.size → P h)
    (hnext : ∀ a b, P a → b ∈ next a → b.index < marks.size → P b) :
    ∀ h ∈ visit next marks stack, P h := by
  fun_induction visit next marks stack with
  | case1 => intro h hm; cases hm
  | case2 marks h rest hu ih =>
    have hb : h.index < marks.size := (Array.getElem?_eq_some_iff.1 hu).1
    have hh : P h := hstack h List.mem_cons_self hb
    intro k hk
    rcases List.mem_cons.1 hk with rfl | hk
    · exact hh
    · refine ih (fun s hs hsb => ?_) (fun a b ha hab hbb => ?_) k hk
      · rw [Array.size_setIfInBounds] at hsb
        rcases List.mem_append.1 hs with hs | hs
        · exact hnext h s hh (List.mem_reverse.1 hs) hsb
        · exact hstack s (List.mem_cons_of_mem _ hs) hsb
      · rw [Array.size_setIfInBounds] at hbb
        exact hnext a b ha hab hbb
  | case3 marks h rest hu ih =>
    exact ih (fun s hs hsb => hstack s (List.mem_cons_of_mem _ hs) hsb) hnext

/-- All of the stack is met, unless it was marked before, and so is all that follows. -/
theorem visit_closed :
    (∀ s ∈ stack, s.index < marks.size →
      s ∈ visit next marks stack ∨ marks[s.index]? = some true) ∧
    (∀ a ∈ visit next marks stack, ∀ b ∈ next a, b.index < marks.size →
      b ∈ visit next marks stack ∨ marks[b.index]? = some true) := by
  fun_induction visit next marks stack with
  | case1 => exact ⟨fun _ hs => absurd hs List.not_mem_nil, fun _ ha => absurd ha List.not_mem_nil⟩
  | case2 marks h rest hu ih =>
    have hsize : (marks.setIfInBounds h.index true).size = marks.size := Array.size_setIfInBounds
    have lift : ∀ s, s ∈ visit next (marks.setIfInBounds h.index true) ((next h).reverse ++ rest) ∨
        (marks.setIfInBounds h.index true)[s.index]? = some true →
        s ∈ h :: visit next (marks.setIfInBounds h.index true) ((next h).reverse ++ rest) ∨
          marks[s.index]? = some true := by
      rintro s (hs | hs)
      · exact .inl (List.mem_cons_of_mem _ hs)
      · rcases getElem?_setIfInBounds_true.1 hs with hs | ⟨rfl, _⟩
        · exact .inr hs
        · exact .inl List.mem_cons_self
    refine ⟨fun s hs hb => ?_, fun a ha b hab hb => ?_⟩
    · rcases List.mem_cons.1 hs with rfl | hs
      · exact .inl List.mem_cons_self
      · exact lift s (ih.1 s (List.mem_append.2 (.inr hs)) (hsize ▸ hb))
    · rcases List.mem_cons.1 ha with rfl | ha
      · exact lift b (ih.1 b (List.mem_append.2 (.inl (List.mem_reverse.2 hab))) (hsize ▸ hb))
      · exact lift b (ih.2 a ha b hab (hsize ▸ hb))
  | case3 marks h rest hu ih =>
    refine ⟨fun s hs hb => ?_, ih.2⟩
    rcases List.mem_cons.1 hs with rfl | hs
    · exact .inr ((marked_or_unmarked hb).resolve_right hu)
    · exact ih.1 s hs hb

/-- What is met was not marked before. -/
theorem unmarked_of_mem_visit : ∀ h ∈ visit next marks stack, marks[h.index]? = some false := by
  fun_induction visit next marks stack with
  | case1 => intro h hm; cases hm
  | case2 marks h rest hu ih =>
    intro k hk
    rcases List.mem_cons.1 hk with rfl | hk
    · exact hu
    · have hf := ih k hk
      have hb : k.index < marks.size := by
        have := (Array.getElem?_eq_some_iff.1 hf).1
        rwa [Array.size_setIfInBounds] at this
      refine (marked_or_unmarked hb).resolve_left fun ht => ?_
      rw [getElem?_setIfInBounds_true.2 (.inl ht)] at hf
      cases hf
  | case3 marks h rest hu ih => exact ih

theorem nodup_visit : (visit next marks stack).Nodup := by
  fun_induction visit next marks stack with
  | case1 => exact List.nodup_nil
  | case2 marks h rest hu ih =>
    refine List.nodup_cons.2 ⟨fun hm => ?_, ih⟩
    have hf := unmarked_of_mem_visit h hm
    have hb : h.index < marks.size := (Array.getElem?_eq_some_iff.1 hu).1
    rw [getElem?_setIfInBounds_true.2 (.inr ⟨rfl, hb⟩)] at hf
    cases hf
  | case3 marks h rest hu ih => exact ih

/-- A traversal meets each handle once. -/
theorem nodup_reachFrom (size : Nat) (starts : List Handle) :
    (reachFrom size next starts).Nodup := nodup_visit

/-- A traversal meets exactly what steps from the starts lead to. -/
theorem mem_reachFrom {size : Nat} {starts : List Handle} {h : Handle} :
    h ∈ reachFrom size next starts ↔ Reached size next starts h := by
  unfold reachFrom
  have hsize : (Array.replicate size false).size = size := Array.size_replicate
  have hfresh : ∀ k : Handle, (Array.replicate size false)[k.index]? ≠ some true := by
    intro k
    rw [Array.getElem?_replicate]
    split <;> simp
  constructor
  · refine of_mem_visit (fun s hs hb => .start hs (hsize ▸ hb))
      (fun a b ha hab hb => .step ha hab (hsize ▸ hb)) h
  · obtain ⟨hstack, hclosed⟩ := @visit_closed next (Array.replicate size false) starts
    intro hr
    induction hr with
    | start hs hb => exact (hstack _ hs (hsize.symm ▸ hb)).resolve_right (hfresh _)
    | step _ hn hb ih => exact (hclosed _ ih _ hn (hsize.symm ▸ hb)).resolve_right (hfresh _)

end TypeGraph
