import TypeGraph.Graph.Replacement
import TypeGraph.Traversal.Lemmas

/-!
# Reachability through slots

A type reaches what it holds, however deep. `mem_reachFrom_targets` ties the traversal of targets to
this relation in a graph whose live types hold only types of the arena.
-/

namespace TypeGraph.Graph

/-- Steps from a node to the live types of its slots lead from one type to another. -/
inductive Reaches (g : Graph) : Handle → Handle → Prop where
  | refl (a : Handle) : Reaches g a a
  | step {a b c : Handle} (hb : b ∈ g.targets a) (hc : Reaches g b c) : Reaches g a c

variable {g : Graph} {a b c : Handle}

theorem Reaches.of_mem (hb : b ∈ g.targets a) : g.Reaches a b := .step hb (.refl b)

theorem Reaches.trans (hab : g.Reaches a b) (hbc : g.Reaches b c) : g.Reaches a c := by
  induction hab with
  | refl => exact hbc
  | step hb _ ih => exact .step hb (ih hbc)

theorem Reaches.tail (hab : g.Reaches a b) (hc : c ∈ g.targets b) : g.Reaches a c :=
  hab.trans (.of_mem hc)

/-- A closed set of types holds all that its members reach. -/
theorem Reaches.of_closed {P : Handle → Prop} (hP : ∀ x, P x → ∀ y ∈ g.targets x, P y)
    (hr : g.Reaches a b) (ha : P a) : P b := by
  induction hr with
  | refl => exact ha
  | step hb _ ih => exact ih (hP _ ha _ hb)

/-- Every slot leads to a type of the arena. -/
def TargetsBounded (g : Graph) : Prop := ∀ a, ∀ b ∈ g.targets a, b.index < g.size

/-- The traversal of targets meets what the targets of a type reach. -/
theorem mem_reachFrom_targets (hg : g.TargetsBounded) :
    c ∈ reachFrom g.size g.targets (g.targets a) ↔ ∃ b ∈ g.targets a, g.Reaches b c := by
  rw [mem_reachFrom]
  constructor
  · intro hc
    induction hc with
    | start hs _ => exact ⟨_, hs, .refl _⟩
    | step _ hn _ ih =>
      obtain ⟨b, hb, hr⟩ := ih
      exact ⟨b, hb, hr.tail hn⟩
  · rintro ⟨b, hb, hr⟩
    have hstart : Reached g.size g.targets (g.targets a) b := .start hb (hg a b hb)
    clear hb
    induction hr with
    | refl => exact hstart
    | step hn _ ih => exact ih (.step hstart hn (hg _ _ hn))

/-- What a type reaches, the traversal of targets meets, the type itself aside. -/
theorem reaches_iff (hg : g.TargetsBounded) :
    g.Reaches a c ↔ a = c ∨ c ∈ reachFrom g.size g.targets (g.targets a) := by
  rw [mem_reachFrom_targets hg]
  constructor
  · rintro (_ | ⟨hb, hc⟩)
    · exact .inl rfl
    · exact .inr ⟨_, hb, hc⟩
  · rintro (rfl | ⟨b, hb, hc⟩)
    · exact .refl a
    · exact .step hb hc

/-- What the traversal does not meet is not reached. -/
theorem not_reaches_of_contains (hg : g.TargetsBounded) (hne : a ≠ c)
    (hc : (reachFrom g.size g.targets (g.targets a)).contains c = false) : ¬ g.Reaches a c := by
  rw [reaches_iff hg, ← List.contains_iff_mem, hc]
  rintro (heq | ⟨⟨⟩⟩)
  exact hne heq

end TypeGraph.Graph
