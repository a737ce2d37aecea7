import TypeGraph.Proofs.Homomorphisms

/-!
# Cycles in any graph without cycles of forward links

Whether a type is on a cycle is asked in the middle of a refinement, where slots still hold types
that were replaced. All that the search needs is that forward links form no cycle.

1. One step leads from a type over a slot, and all forward links behind it, to a live type
   (`StepsTo`). The targets of a type are where its steps lead.
2. The search keeps a stack of slots to follow and the live types that it has met. The start is not
   among these: it ends the search when it comes up (`Seeking`).
3. Each type puts its slots on the stack once, so the search ends within as many turns as there are
   slots (`Seeking.seekWithin_eq`).

`findsCycle_of_acyclic` puts these together: the search says yes exactly when one step or more lead
from the start back to it.
-/

namespace TypeGraph.Graph

/-- A slot of the one type leads over forward links to the other, which is live. -/
def StepsTo (g : Graph) (a b : Handle) : Prop :=
  ∃ s ∈ (g.node a).slots, Relation.ReflTransGen g.Forwards s b ∧ g.Live b

/-- Whether the handles of a stack lead to the start, past the types that were met, on fuel for `n`
handles with `links` forward links for each. -/
def seekWithin (g : Graph) (links : Nat) (start : Handle) :
    Nat → List Handle → List Handle → Option Bool
  | _, _, [] => some false
  | 0, _, _ :: _ => none
  | n + 1, met, h :: rest => do
    let r ← g.resolveWithin links h
    if r = start then
      some true
    else if r ∈ met then
      g.seekWithin links start n met rest
    else
      g.seekWithin links start n (r :: met) ((g.node r).slots.reverse ++ rest)

/-- Whether one or more steps lead from a type back to it, on fuel. -/
def onCycleWithin (g : Graph) (links n : Nat) (start : Handle) : Option Bool :=
  g.seekWithin links start n [] (g.node start).slots.reverse

/-- The slots of the types that were not met. -/
def unmetCount (g : Graph) (met : List Handle) : Nat :=
  ∑ i ∈ (Finset.range g.size).filter fun i => ⟨i⟩ ∉ met, (g.node ⟨i⟩).slots.length

variable {g : Graph} {a b h start : Handle} {met rest stack : List Handle} {links n : Nat}

/-! ## Steps -/

theorem StepsTo.lt (hab : g.StepsTo a b) : a.index < g.size :=
  have ⟨_, hs, _⟩ := hab
  lt_of_mem_slots hs

/-- The targets of a type are where its steps lead. -/
theorem ForwardsEnd.mem_targets_iff (hg : g.ForwardsEnd) : b ∈ g.targets a ↔ g.StepsTo a b := by
  unfold targets
  rw [List.mem_map]
  constructor
  · rintro ⟨s, hs, rfl⟩
    exact ⟨s, hs, forwards_follow g.size s, hg.forward_resolve s⟩
  · rintro ⟨s, hs, hpath, hl⟩
    exact ⟨s, hs, (hg.resolve_of_forwards hpath).trans hl.resolve_eq⟩

theorem ForwardsEnd.stepsTo_resolve (hg : g.ForwardsEnd) (hs : h ∈ (g.node a).slots) :
    g.StepsTo a (g.resolve h) :=
  hg.mem_targets_iff.1 (List.mem_map_of_mem hs)

/-- The traversal of targets meets what one step or more lead to. -/
theorem ForwardsEnd.reached_targets_iff (hg : g.ForwardsEnd) (hb : b.index < g.size) :
    Reached g.size g.targets (g.targets a) b ↔ Relation.TransGen g.StepsTo a b := by
  constructor
  · clear hb
    intro hr
    induction hr with
    | start hs _ => exact .single (hg.mem_targets_iff.1 hs)
    | step _ hn _ ih => exact ih.tail (hg.mem_targets_iff.1 hn)
  · intro hpath
    induction hpath with
    | single hab => exact .start (hg.mem_targets_iff.2 hab) hb
    | tail _ hbc ih => exact .step (ih hbc.lt) (hg.mem_targets_iff.2 hbc) hb

/-- The search answers whether one step or more lead back. -/
theorem ForwardsEnd.onCycle_iff (hg : g.ForwardsEnd) :
    g.onCycle start ↔ Relation.TransGen g.StepsTo start start := by
  unfold onCycle
  rw [List.contains_iff_mem, mem_reachFrom]
  by_cases hb : start.index < g.size
  · exact hg.reached_targets_iff hb
  · constructor
    · intro hr
      cases hr with
      | start _ hlt | step _ _ hlt => exact absurd hlt hb
    · intro hpath
      obtain ⟨_, hstep, -⟩ := Relation.TransGen.head'_iff.1 hpath
      exact absurd hstep.lt hb

/-! ## The search ends -/

/-- A type that is met has no more slots to put on the stack. -/
theorem unmetCount_cons (hnew : h ∉ met) :
    g.unmetCount (h :: met) + (g.node h).slots.length = g.unmetCount met := by
  have herase : ((Finset.range g.size).filter fun i => (⟨i⟩ : Handle) ∉ h :: met) =
      ((Finset.range g.size).filter fun i => (⟨i⟩ : Handle) ∉ met).erase h.index := by
    ext i
    have hi : (⟨i⟩ : Handle) = h ↔ i = h.index := by
      cases h
      simp
    simp only [Finset.mem_erase, Finset.mem_filter, List.mem_cons, hi]
    tauto
  unfold unmetCount
  rw [herase]
  by_cases hb : h.index < g.size
  · exact Finset.sum_erase_add _ _ (Finset.mem_filter.2 ⟨Finset.mem_range.2 hb, hnew⟩)
  · rw [Finset.erase_eq_of_notMem (by simp [hb]), node_of_size_le (Nat.le_of_not_lt hb)]
    rfl

theorem unmetCount_nil (g : Graph) : g.unmetCount [] = g.slotCount := by
  unfold unmetCount slotCount
  rw [Finset.filter_true_of_mem fun i _ => List.not_mem_nil]

theorem ForwardsEnd.seekWithin_cons (hg : g.ForwardsEnd) (hlinks : g.size ≤ links) :
    g.seekWithin links start (n + 1) met (h :: rest) =
      if g.resolve h = start then some true
      else if g.resolve h ∈ met then g.seekWithin links start n met rest
      else g.seekWithin links start n (g.resolve h :: met)
        ((g.node (g.resolve h)).slots.reverse ++ rest) := by
  rw [seekWithin, hg.resolveWithin_eq hlinks, Option.bind_eq_bind, Option.bind_some]

/-- What holds each time the search takes a handle from its stack. -/
structure Seeking (g : Graph) (start : Handle) (met stack : List Handle) : Prop where
  /-- The stack holds slots of what the start leads to. -/
  path : ∀ h ∈ stack, Relation.TransGen g.StepsTo start (g.resolve h)
  start_not_mem : start ∉ met
  /-- Each slot of the start and of what was met leads to what was met, or is still on the stack. -/
  closed : ∀ a ∈ start :: met, ∀ s ∈ (g.node a).slots, s ∈ stack ∨ g.resolve s ∈ met

namespace Seeking

theorem begin (hg : g.ForwardsEnd) (start : Handle) :
    g.Seeking start [] (g.node start).slots.reverse where
  path := fun _ hs => .single (hg.stepsTo_resolve (List.mem_reverse.1 hs))
  start_not_mem := List.not_mem_nil
  closed := by
    intro a ha s hs
    obtain rfl := List.mem_singleton.1 ha
    exact .inl (List.mem_reverse.2 hs)

/-- The handle leads to what was met before. -/
theorem pass (hs : g.Seeking start met (h :: rest)) (hmet : g.resolve h ∈ met) :
    g.Seeking start met rest where
  path := fun k hk => hs.path k (List.mem_cons_of_mem _ hk)
  start_not_mem := hs.start_not_mem
  closed := by
    intro a ha s hslot
    rcases hs.closed a ha s hslot with hm | hm
    · rcases List.mem_cons.1 hm with rfl | hm
      · exact .inr hmet
      · exact .inl hm
    · exact .inr hm

/-- The handle leads to a type that is neither the start nor was met before. -/
theorem meet (hg : g.ForwardsEnd) (hs : g.Seeking start met (h :: rest))
    (hne : g.resolve h ≠ start) :
    g.Seeking start (g.resolve h :: met) ((g.node (g.resolve h)).slots.reverse ++ rest) where
  path := by
    intro k hk
    rcases List.mem_append.1 hk with hk | hk
    · exact (hs.path h List.mem_cons_self).tail (hg.stepsTo_resolve (List.mem_reverse.1 hk))
    · exact hs.path k (List.mem_cons_of_mem _ hk)
  start_not_mem := fun hm => (List.mem_cons.1 hm).elim (fun heq => hne heq.symm) hs.start_not_mem
  closed := by
    intro a ha s hslot
    by_cases hnew : a = g.resolve h
    · subst hnew
      exact .inl (List.mem_append_left _ (List.mem_reverse.2 hslot))
    have hold : a ∈ start :: met := by
      simp only [List.mem_cons] at ha ⊢
      exact ha.imp_right fun hm => hm.resolve_left hnew
    rcases hs.closed a hold s hslot with hm | hm
    · rcases List.mem_cons.1 hm with rfl | hm
      · exact .inr List.mem_cons_self
      · exact .inl (List.mem_append_right _ hm)
    · exact .inr (List.mem_cons_of_mem _ hm)

/-- With nothing left on the stack, the start leads only to what was met. -/
theorem not_transGen (hg : g.ForwardsEnd) (hs : g.Seeking start met []) :
    ¬ Relation.TransGen g.StepsTo start start := by
  have hstep : ∀ {a b}, a ∈ start :: met → g.StepsTo a b → b ∈ met := by
    intro a b ha hab
    obtain ⟨s, hslot, rfl⟩ := List.mem_map.1 (hg.mem_targets_iff.2 hab)
    exact (hs.closed a ha s hslot).resolve_left List.not_mem_nil
  have hmet : ∀ {b}, Relation.TransGen g.StepsTo start b → b ∈ met := by
    intro b hpath
    induction hpath with
    | single hab => exact hstep List.mem_cons_self hab
    | tail _ hbc ih => exact hstep (List.mem_cons_of_mem _ ih) hbc
  exact fun hpath => hs.start_not_mem (hmet hpath)

/-- With fuel for all slots that can come up, the search gives the answer of `onCycle`. -/
theorem seekWithin_eq (hg : g.ForwardsEnd) (hlinks : g.size ≤ links)
    (hs : g.Seeking start met stack) (hn : stack.length + g.unmetCount (met ++ [start]) ≤ n) :
    g.seekWithin links start n met stack = some (g.onCycle start) := by
  induction n generalizing met stack with
  | zero =>
    obtain rfl : stack = [] := List.length_eq_zero_iff.1 (by omega)
    rw [seekWithin, eq_false_of_ne_true (mt hg.onCycle_iff.1 (hs.not_transGen hg))]
  | succ n ih =>
    cases stack with
    | nil => rw [seekWithin, eq_false_of_ne_true (mt hg.onCycle_iff.1 (hs.not_transGen hg))]
    | cons h rest =>
      rw [List.length_cons] at hn
      rw [hg.seekWithin_cons hlinks]
      by_cases hstart : g.resolve h = start
      · have hcycle := hs.path h List.mem_cons_self
        rw [hstart] at hcycle
        rw [if_pos hstart, hg.onCycle_iff.2 hcycle]
      rw [if_neg hstart]
      by_cases hmet : g.resolve h ∈ met
      · rw [if_pos hmet]
        exact ih (hs.pass hmet) (by omega)
      · rw [if_neg hmet]
        refine ih (hs.meet hg hstart) ?_
        have hnew : g.resolve h ∉ met ++ [start] := by simp [hmet, hstart]
        have hcount := unmetCount_cons (g := g) hnew
        rw [List.length_append, List.length_reverse, List.cons_append]
        omega

end Seeking

/-! ## The theorem -/

/-- What the search for a way back to a type comes to. -/
structure FindsCycle (g : Graph) (start : Handle) : Prop where
  /-- Fuel enough for all links and all slots is enough for the answer. -/
  ends : ∀ {links n}, g.size ≤ links → g.slotCount ≤ n →
    g.onCycleWithin links n start = some (g.onCycle start)
  /-- The answer is yes exactly when one step or more lead back. -/
  onCycle_iff : g.onCycle start ↔ Relation.TransGen g.StepsTo start start

theorem ForwardsEnd.findsCycle (hg : g.ForwardsEnd) (start : Handle) : g.FindsCycle start where
  ends := by
    intro links n hlinks hn
    refine (Seeking.begin hg start).seekWithin_eq hg hlinks ?_
    have hcount := unmetCount_cons (g := g) (h := start) List.not_mem_nil
    rw [unmetCount_nil] at hcount
    rw [List.length_reverse, List.nil_append]
    omega
  onCycle_iff := hg.onCycle_iff

/-- **Cycles.** If forward links form no cycle, the search from any type ends, and says yes exactly
when one step or more lead from the type back to it. -/
theorem findsCycle_of_acyclic (hacyclic : ∀ h, ¬ Relation.TransGen g.Forwards h h)
    (start : Handle) : g.FindsCycle start :=
  (forwardsEnd_iff_acyclic.2 hacyclic).findsCycle start

set_option maxRecDepth 10000 in
/-- In the middle of a refinement two pointers hold each other, one of them through a placeholder
that was just replaced, and a structure holds one of them. The pointers are on a cycle, and the
structure only leads to it. -/
theorem findsCycle_replaced : ∃ g, initial.play
    [.placeholder, .pointer ⟨9⟩, .pointer ⟨10⟩, .struct [⟨11⟩, .i8] false] = some g ∧
    (∀ h, ¬ Relation.TransGen (g.retire ⟨9⟩ ⟨11⟩).Forwards h h) ∧
    ((g.retire ⟨9⟩ ⟨11⟩).node ⟨10⟩).slots = [⟨9⟩] ∧ ¬ (g.retire ⟨9⟩ ⟨11⟩).Live ⟨9⟩ ∧
    (g.retire ⟨9⟩ ⟨11⟩).Live ⟨10⟩ ∧ (g.retire ⟨9⟩ ⟨11⟩).FindsCycle ⟨10⟩ ∧
    (g.retire ⟨9⟩ ⟨11⟩).onCycle ⟨10⟩ ∧
    Relation.TransGen (g.retire ⟨9⟩ ⟨11⟩).StepsTo ⟨10⟩ ⟨10⟩ ∧
    (g.retire ⟨9⟩ ⟨11⟩).StepsTo ⟨12⟩ ⟨11⟩ ∧
    ¬ Relation.TransGen (g.retire ⟨9⟩ ⟨11⟩).StepsTo ⟨12⟩ ⟨12⟩ := by
  have h : ((initial.play
      [.placeholder, .pointer ⟨9⟩, .pointer ⟨10⟩, .struct [⟨11⟩, .i8] false]).map fun g =>
        ((g.size, (g.node ⟨9⟩).forward, (g.node ⟨11⟩).forward),
          ((g.retire ⟨9⟩ ⟨11⟩).node ⟨10⟩).slots, ((g.retire ⟨9⟩ ⟨11⟩).node ⟨9⟩).forward,
          ((g.retire ⟨9⟩ ⟨11⟩).node ⟨10⟩).forward, (g.retire ⟨9⟩ ⟨11⟩).targets ⟨12⟩,
          (g.retire ⟨9⟩ ⟨11⟩).onCycle ⟨10⟩, (g.retire ⟨9⟩ ⟨11⟩).onCycle ⟨12⟩)) =
        some ((13, none, none), [⟨9⟩], some ⟨11⟩, none, [⟨11⟩, .i8], true, false) := by cbv
  obtain ⟨g, hg, heq⟩ := Option.map_eq_some_iff.1 h
  simp only [Prod.mk.injEq] at heq
  obtain ⟨⟨hsize, hold, hnew⟩, hslots, hretired, hlive, htargets, hcycle, hno⟩ := heq
  have hend : (g.retire ⟨9⟩ ⟨11⟩).ForwardsEnd :=
    (Reachable.initial.play hg).consistent.wellFormed.forwardsEnd.retire
      (by rw [hsize]; decide) hold hnew (by decide)
  have hacyclic := forwardsEnd_iff_acyclic.1 hend
  have hfinds := findsCycle_of_acyclic hacyclic ⟨10⟩
  refine ⟨g, hg, hacyclic, hslots, not_live_iff.2 ⟨_, hretired⟩, hlive, hfinds, hcycle,
    hfinds.onCycle_iff.1 hcycle, hend.mem_targets_iff.1 (by rw [htargets]; simp), ?_⟩
  rw [← (findsCycle_of_acyclic hacyclic ⟨12⟩).onCycle_iff, hno]
  decide

end TypeGraph.Graph
