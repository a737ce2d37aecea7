import Mathlib.Data.List.Forall2
import TypeGraph.Graph.Basic

/-!
# Types of the same unfolding

Two types unfold alike when some relation between nodes holds of them and is a bisimulation: it
relates nodes of one shape only, scalars and placeholders only to themselves, and the slots of
related nodes pair by pair. The two types may stand in two graphs, which share the handles of
scalars and placeholders. This is equality of types, recursive ones included.
-/

namespace TypeGraph.Graph

/-- Two nodes agree, and their slots are related in order. -/
structure Corresponds (g g' : Graph) (R : Handle → Handle → Prop) (a b : Handle) : Prop where
  shape_eq : (g.node a).shape = (g'.node b).shape
  eq_of_not_uniqued : (g.node a).kind.isUniqued = false → a = b
  slots : List.Forall₂ (fun s t => R (g.resolve s) (g'.resolve t)) (g.node a).slots (g'.node b).slots

/-- Related nodes correspond. -/
def IsBisimulation (g g' : Graph) (R : Handle → Handle → Prop) : Prop :=
  ∀ a b, R a b → g.Corresponds g' R a b

/-- The live types of two handles unfold alike. -/
def SameUnfolding (g g' : Graph) (a b : Handle) : Prop :=
  ∃ R, g.IsBisimulation g' R ∧ R (g.resolve a) (g'.resolve b)

/-! ## Same unfolding is an equivalence -/

theorem forall₂_comp {R S T : Handle → Handle → Prop} (hT : ∀ a b c, R a b → S b c → T a c)
    {as bs cs : List Handle} (hR : List.Forall₂ R as bs) (hS : List.Forall₂ S bs cs) :
    List.Forall₂ T as cs := by
  induction hR generalizing cs with
  | nil =>
    cases hS
    exact .nil
  | cons hab _ ih =>
    cases hS with
    | cons hbc hrest => exact .cons (hT _ _ _ hab hbc) (ih hrest)

theorem isBisimulation_eq (g : Graph) : g.IsBisimulation g Eq := by
  rintro a _ rfl
  exact ⟨rfl, fun _ => rfl, List.forall₂_same.2 fun _ _ => rfl⟩

variable {g₁ g₂ g₃ : Graph} {R S : Handle → Handle → Prop} {a b c : Handle}

theorem IsBisimulation.flip (h : g₁.IsBisimulation g₂ R) :
    g₂.IsBisimulation g₁ fun b a => R a b := by
  intro b a hab
  obtain ⟨hs, hu, hf⟩ := h a b hab
  refine ⟨hs.symm, fun hb => (hu ?_).symm, hf.flip⟩
  unfold Node.kind at hb ⊢
  rwa [hs]

theorem IsBisimulation.comp (hR : g₁.IsBisimulation g₂ R) (hS : g₂.IsBisimulation g₃ S) :
    g₁.IsBisimulation g₃ fun a c => ∃ b, R a b ∧ S b c := by
  rintro a c ⟨b, hab, hbc⟩
  obtain ⟨hs, hu, hf⟩ := hR a b hab
  obtain ⟨hs', hu', hf'⟩ := hS b c hbc
  refine ⟨hs.trans hs', fun ha => (hu ha).trans (hu' ?_),
    forall₂_comp (fun s t u hst htu => ⟨g₂.resolve t, hst, htu⟩) hf hf'⟩
  unfold Node.kind at ha ⊢
  rwa [← hs]

theorem SameUnfolding.refl (g : Graph) (a : Handle) : g.SameUnfolding g a a :=
  ⟨Eq, g.isBisimulation_eq, rfl⟩

theorem SameUnfolding.symm : g₁.SameUnfolding g₂ a b → g₂.SameUnfolding g₁ b a := by
  rintro ⟨R, hR, hab⟩
  exact ⟨_, hR.flip, hab⟩

theorem SameUnfolding.trans :
    g₁.SameUnfolding g₂ a b → g₂.SameUnfolding g₃ b c → g₁.SameUnfolding g₃ a c := by
  rintro ⟨R, hR, hab⟩ ⟨S, hS, hbc⟩
  exact ⟨_, hR.comp hS, _, hab, hbc⟩

end TypeGraph.Graph
