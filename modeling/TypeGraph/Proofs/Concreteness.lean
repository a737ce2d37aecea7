import TypeGraph.Proofs.Growth

/-!
# Concrete types are permanent

A concrete type holds only concrete types, so no refinement rewrites it, and no factory changes a
type that is there. So it stays live, concrete and of the same structure in all later graphs, and
its key leads to it. That holds from any moment of a refinement on: the types that were promoted on
the way are as permanent as the others, and a type that collapses into one of them is the one that is
retired.

`Sound.untouched_of_concrete`: what is left of a refinement leaves concrete types alone.
`Reachable.concretePermanent`: all later graphs keep them.
-/

namespace TypeGraph.Graph

/-- The later graph has the concrete type of the earlier one: it is live and concrete, has the same
structure and no observers, and is the canonical instance of its key. -/
structure Keeps (g g' : Graph) (t : Handle) : Prop where
  resolve_eq : g'.resolve t = t
  isAbstract_eq : (g'.node t).isAbstract = false
  shape_eq : (g'.node t).shape = (g.node t).shape
  slots_eq : (g'.node t).slots = (g.node t).slots
  observers_eq : g'.observers t = []
  observerCount_eq : g'.observerCount t = 0
  entry?_eq : (g.node t).kind.isUniqued →
    g'.registry.entry? t = some ⟨t, (g.node t).key, .canonical⟩
  lookupIn_eq : (g.node t).kind.isUniqued →
    g'.registry.lookupIn .canonical (g.node t).key = some t
  /-- The factory call over components that stand for its slots gives the type, and changes
  nothing. -/
  exists_call : (g.node t).kind.isUniqued → ∀ (s : Shape) (parts : List Handle),
    s.trimmed = (g.node t).shape → parts.map g'.resolve = (g.node t).slots →
      ∃ a, s.call? parts = some a ∧ g'.perform a = .ok ⟨g', .made t, []⟩

/-- Concrete types stay as they are. -/
structure ConcretePermanent (g : Graph) : Prop where
  /-- Every later graph keeps each live concrete type. -/
  keeps : ∀ {t g'}, t.index < g.size → g.Live t → (g.node t).isAbstract = false → Leads g g' →
    g.Keeps g' t
  /-- From each moment of a refinement on, what is concrete then is kept, and a type that collapses
  into it stands for it afterwards. -/
  survives : ∀ {old new g' events g₁ agenda t}, new.index < g.size →
    g.refine old new = .ok (g', events) → Moment g [.refine old new] g₁ agenda →
    g₁.Live t → (g₁.node t).isAbstract = false →
      g₁.Keeps g' t ∧ ∀ owner rest, agenda = .refine owner t :: rest → g'.resolve owner = t

variable {g g' : Graph} {t old new : Handle} {agenda agenda' rest : List Task}
  {events heard : List Event} {out : Graph × List Event}

/-! ## What is left of a refinement -/

/-- The first task of a refinement retires its type. -/
theorem Refinable.run_eq (hr : g.Refinable old new) (rest : List Task) (heard : List Event) :
    g.run (.refine old new :: rest) heard =
      (g.begin old new).run (g.settling old new :: rest) heard := by
  have hstep : g.step (.refine old new) = ⟨g.begin old new, [g.settling old new], []⟩ :=
    hr.refineStep_eq
  rw [run]
  show (g.step (.refine old new)).graph.run ((g.step (.refine old new)).tasks ++ rest) _ = _
  rw [hstep, List.append_nil]
  rfl

/-- From each moment on the run ends as it would have. -/
theorem Moment.exists_run_eq (hm : Moment g agenda g' agenda') (heard : List Event) :
    ∃ heard', g.run agenda heard = g'.run agenda' heard' := by
  induction hm with
  | start => exact ⟨heard, rfl⟩
  | @step g₁ t _ _ hf ih =>
    obtain ⟨heard', heq⟩ := ih
    refine ⟨heard' ++ (g₁.step t).events, heq.trans ?_⟩
    rw [run]
    simp only [hf]

theorem Steady.untouched_of_concrete (hs : g.Steady agenda) (h : g.run agenda heard = .ok out)
    (ht : (g.node t).isAbstract = false) : g.Untouched out.1 t := by
  apply (Sound.steady hs).untouched h hs.consistent.wellFormed.secluded_concrete ?_ ht
  rintro old new rest rfl
  exact absurd rfl (hs.begun.ne_refine old new)

/-- What is left of a refinement leaves concrete types alone. -/
theorem Sound.untouched_of_concrete (hs : Sound g agenda) (h : g.run agenda heard = .ok out)
    (ht : (g.node t).isAbstract = false) : g.Untouched out.1 t := by
  cases hs with
  | steady hs => exact hs.untouched_of_concrete h ht
  | @beginning old new rest hr hs =>
    have hne : t ≠ old := by
      rintro rfl
      rw [hr.isAbstract] at ht
      cases ht
    have hbegin := untouched_begin hr hne
    rw [hr.run_eq] at h
    exact hbegin.trans (hs.untouched_of_concrete h
      ((Node.isAbstract_of_bare hbegin.bare_eq).trans ht))

/-- A type whose refinement comes next is retired in favour of the other. -/
theorem Sound.forwards_refine (hs : Sound g (.refine old new :: rest))
    (h : g.run (.refine old new :: rest) heard = .ok out) : out.1.Forwards old (g.resolve new) := by
  cases hs with
  | steady hs => exact absurd rfl (hs.begun.ne_refine old new)
  | beginning hr hs =>
    rw [hr.run_eq] at h
    refine (run_induction (P := fun g₁ _ _ => g₁.Forwards old (g.resolve new))
      (fun hf hadv => hadv.forwards hf) _ _ _ h).1 hs.begun ?_
    unfold Forwards
    rw [forward_begin hr, if_pos rfl]

/-! ## Later graphs -/

/-- What is live, concrete and untouched in a reachable graph is kept. -/
theorem Reachable.keeps (hg' : Reachable g') (hu : g.Untouched g' t) (hl : g.Live t)
    (ha : (g.node t).isAbstract = false) : g.Keeps g' t := by
  have hc := hg'.consistent
  have hl' : g'.Live t := hu.live_iff.2 hl
  have ha' : (g'.node t).isAbstract = false := (Node.isAbstract_of_bare hu.bare_eq).trans ha
  have hshape : (g'.node t).shape = (g.node t).shape := Node.shape_of_bare hu.bare_eq
  have hslots : (g'.node t).slots = (g.node t).slots := Node.slots_of_bare hu.bare_eq
  have hkey : (g'.node t).key = (g.node t).key := Node.key_of_bare hu.bare_eq
  have hunobserved : ¬ (g'.Live t ∧ (g'.node t).isAbstract) := fun h => by simp [ha'] at h
  have huniqued : (g.node t).kind.isUniqued → (g'.node t).kind.isUniqued := by
    unfold Node.kind
    rw [hshape]
    exact id
  have hentry : (g.node t).kind.isUniqued →
      g'.registry.entry? t = some ⟨t, (g.node t).key, .canonical⟩ := by
    intro hk
    rw [hc.entry?_eq_some_iff, entryOf, hkey, ha']
    exact ⟨rfl, hl', huniqued hk⟩
  refine ⟨hl'.resolve_eq, ha', hshape, hslots, (hg'.attended.observersExact.eq_nil hunobserved).2.2,
    hg'.attended.observersExact.observerCount_eq_zero hunobserved, hentry, fun hk => ?_,
    fun hk s parts hs hparts => ?_⟩
  · obtain ⟨hmem, -⟩ := hc.indexed.injective.entry?_eq_some_iff.1 (hentry hk)
    exact hc.indexed.injective.lookupIn_eq_some_iff.2 ⟨_, hmem, rfl, rfl, rfl⟩
  · obtain ⟨a, hcall, -, hrequested⟩ :=
      hg'.exists_call hl' (huniqued hk) (hshape.trans hs.symm) (hparts.trans hslots.symm)
    exact ⟨a, hcall, hc.perform_eq_self hl' hrequested⟩

/-- No action touches a concrete type. -/
theorem Reachable.untouched_perform (hg : Reachable g) {a : Action} {p : Performed}
    (ha : ∀ h ∈ a.handles, h.index < g.size) (hp : g.perform a = .ok p) (ht : t.index < g.size)
    (hc : (g.node t).isAbstract = false) : t.index < p.graph.size ∧ g.Untouched p.graph t := by
  by_cases hr : ∃ old new, a = .refine old new
  · obtain ⟨old, new, rfl⟩ := hr
    have hnew : new.index < g.size := ha new (by simp [Action.handles])
    cases performs_of_perform hp with
    | refine hr =>
      exact ⟨ht.trans_eq (hg.size_refine hnew hr).symm, hg.untouched_refine_of_concrete hnew hr hc⟩
    | make hk => cases hk
  · have hx := (performs_of_perform hp).extends hg.consistent.wellFormed ha
      fun old new heq => hr ⟨old, new, heq⟩
    exact ⟨hx.lt ht, hx.untouched ht⟩

theorem Leads.untouched (hx : Leads g g') (hg : Reachable g) (ht : t.index < g.size)
    (hc : (g.node t).isAbstract = false) : t.index < g'.size ∧ g.Untouched g' t := by
  induction hx with
  | refl => exact ⟨ht, .refl g t⟩
  | perform hx ha hp ih =>
    obtain ⟨hlt, hkeep⟩ := ih
    obtain ⟨hlt', hkeep'⟩ := (hx.reachable hg).untouched_perform ha hp hlt
      ((Node.isAbstract_of_bare hkeep.bare_eq).trans hc)
    exact ⟨hlt', hkeep.trans hkeep'⟩

/-- **Permanence of concrete types.** Every graph that a reachable graph leads to keeps its live
concrete types, and from each moment of a refinement on so does the rest of the refinement. -/
theorem Reachable.concretePermanent (hg : Reachable g) : g.ConcretePermanent where
  keeps := fun ht hl hc hx => (hx.reachable hg).keeps (hx.untouched hg ht hc).2 hl hc
  survives := by
    intro old new g' events g₁ agenda t hnew h hm hl hc
    have hr := refinable_of_refine h
    have hsound := (hg.sound hr hnew).moment hm
    obtain ⟨heard, heq⟩ := hm.exists_run_eq []
    have hrun : g₁.run agenda heard = .ok (g', events) := heq.symm.trans h
    have hg' : Reachable g' := hg.refine hr.old_lt hnew h
    have hkeeps : g₁.Keeps g' t := hg'.keeps (hsound.untouched_of_concrete hrun hc) hl hc
    refine ⟨hkeeps, ?_⟩
    rintro owner rest rfl
    have hforwards : g'.Forwards owner t := by
      rw [← hl.resolve_eq]
      exact hsound.forwards_refine hrun
    rw [hg'.consistent.wellFormed.forwardsEnd.resolve_of_forward_some hforwards, hkeeps.resolve_eq]

set_option maxRecDepth 10000 in
/-- A pointer to a placeholder that is refined. In the middle of the refinement it collapses into the
pointer that was there, which is concrete and stays as it is. -/
theorem concretePermanent_pointer : ∃ g g' g₁ events rest, initial.play
    [.pointer .i8, .placeholder, .pointer ⟨10⟩, .struct [⟨9⟩, ⟨11⟩] false] = some g ∧
    g.refine ⟨10⟩ .i8 = .ok (g', events) ∧
    Moment g [.refine ⟨10⟩ .i8] g₁ (.refine ⟨11⟩ ⟨9⟩ :: rest) ∧
    g.Keeps g' ⟨9⟩ ∧ g₁.Keeps g' ⟨9⟩ ∧ g'.resolve ⟨11⟩ = ⟨9⟩ := by
  have h : ((initial.play
      [.pointer .i8, .placeholder, .pointer ⟨10⟩, .struct [⟨9⟩, ⟨11⟩] false]).bind fun g =>
      let begun := g.step (.refine ⟨10⟩ .i8)
      let told := begun.graph.step (.settle ⟨10⟩ .i8 [.owner ⟨11⟩])
      (g.refine ⟨10⟩ .i8).toOption.map fun _ =>
        (g.size, (g.node ⟨9⟩).forward, (g.node ⟨9⟩).isAbstract, begun.tasks, told.tasks,
          (told.graph.node ⟨9⟩).forward, (told.graph.node ⟨9⟩).isAbstract)) =
      some (13, none, false, [.settle ⟨10⟩ .i8 [.owner ⟨11⟩]],
        [.refine ⟨11⟩ ⟨9⟩, .settle ⟨10⟩ .i8 []], none, false) := by cbv
  obtain ⟨g, hg, h⟩ := Option.bind_eq_some_iff.1 h
  obtain ⟨⟨g', events⟩, hout, h⟩ := Option.map_eq_some_iff.1 h
  simp only [Prod.mk.injEq] at h
  obtain ⟨hsize, hlive, hconcrete, hbegun, htold, hlive', hconcrete'⟩ := h
  have hr : g.refine ⟨10⟩ .i8 = .ok (g', events) := eq_ok_of_toOption hout
  have hbound : ∀ k ∈ (Action.refine ⟨10⟩ .i8).handles, k.index < g.size := by
    simp [Action.handles, hsize, Handle.i8]
  have hperm := (Reachable.initial.play hg).concretePermanent
  have hstart : Moment g [.refine ⟨10⟩ .i8] g [.refine ⟨10⟩ .i8] := .start
  have hm := hstart.step rfl
  rw [hbegun] at hm
  replace hm := hm.step rfl
  rw [htold] at hm
  obtain ⟨hkeeps, hsurvives⟩ :=
    hperm.survives (hbound _ (by simp [Action.handles])) hr hm hlive' hconcrete'
  refine ⟨g, g', _, events, _, hg, hr, hm, ?_, hkeeps, hsurvives _ _ rfl⟩
  refine hperm.keeps (by simp [hsize]) hlive hconcrete (Leads.refl.perform hbound
    (p := ⟨g', .refined (g'.resolve ⟨10⟩), events⟩) ?_)
  rw [perform, hr]

end TypeGraph.Graph
