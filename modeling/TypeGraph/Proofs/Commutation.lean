import TypeGraph.Proofs.Templates

/-!
# Independent refinements commute

Two placeholders are refined, each to a type that reaches neither of them. In a graph without cycles
the order makes no difference to what the types are. It can make one to the arena: of two types that
become one the first to be told survives, so the two orders can merge different handles and keep
different ones. What is the same is what does not depend on the survivor.

1. `SameTypes.begin`: retiring a placeholder in two graphs of the same types leaves two such graphs.
2. `Independent.sameTypes_refine`: so both orders lead to graphs of the same types.
3. `SameTypes.sameOutcome`: graphs of the same types agree on all that does not depend on survivors.
-/

namespace TypeGraph

/-- The tree of a type. Its leaves are scalars and placeholders, and these are told by their
handles. -/
inductive Tree where
  | placeholder (h : Handle)
  | node (shape : Shape) (parts : List Tree)
deriving Repr

namespace Graph

/-- The tree of a type, if it has at most `n` levels. -/
def tree? (g : Graph) : Nat → Handle → Option Tree
  | 0, _ => none
  | n + 1, h =>
    if (g.live h).isPlaceholder then
      some (.placeholder (g.resolve h))
    else
      ((g.live h).slots.mapM (g.tree? n)).map (.node (g.live h).shape)

/-- A live placeholder and a type of the arena that does not reach it. -/
structure Fillable (g : Graph) (o fill : Handle) : Prop where
  live : g.Live o
  isPlaceholder : (g.node o).isPlaceholder
  lt : fill.index < g.size
  not_reaches : ¬ g.Reaches (g.resolve fill) o

/-- Two placeholders and a type for each that reaches neither of them. -/
structure Independent (g : Graph) (a fa b fb : Handle) : Prop where
  left : g.Fillable a fa
  right : g.Fillable b fb
  ne : a ≠ b
  left_avoids : ¬ g.Reaches (g.resolve fa) b
  right_avoids : ¬ g.Reaches (g.resolve fb) a

/-- In graphs of one size all handles unfold alike. -/
structure SameTypes (g g' : Graph) : Prop where
  size_eq : g'.size = g.size
  sameUnfolding : ∀ h, g.SameUnfolding g' h h

/-- Both graphs say the same of all handles, survivors aside. -/
structure SameOutcome (g g' : Graph) : Prop where
  /-- The same handles stand for one type. -/
  resolve_eq_iff : ∀ s t, g.resolve s = g.resolve t ↔ g'.resolve s = g'.resolve t
  isAbstract_eq : ∀ h, g'.isAbstract h = g.isAbstract h
  liveCount_eq : g'.liveCount = g.liveCount
  canonicalCount_eq : g'.canonicalCount = g.canonicalCount
  provisionalCount_eq : g'.provisionalCount = g.provisionalCount
  tree?_eq : ∀ n h, g'.tree? n h = g.tree? n h
  /-- Every handle has a tree. -/
  exists_tree : ∀ h, ∃ n tree, g.tree? n h = some tree

variable {g g' g'' g₁ g₁₂ : Graph} {a b fa fb h o old new x y z : Handle} {n m : Nat}
  {events events' : List Event} {R : Handle → Handle → Prop} {tree : Tree}

/-! ## Trees -/

theorem mapM_eq_some_iff {α β : Type} {f : α → Option β} {l : List α} {r : List β} :
    l.mapM f = some r ↔ List.Forall₂ (fun a b => f a = some b) l r := by
  induction l generalizing r with
  | nil => simp [eq_comm]
  | cons a l ih =>
    rw [List.mapM_cons, List.forall₂_cons_left_iff]
    constructor
    · intro h
      obtain ⟨b, hb, h⟩ := Option.bind_eq_some_iff.1 h
      obtain ⟨bs, hbs, h⟩ := Option.bind_eq_some_iff.1 h
      cases h
      exact ⟨b, bs, hb, ih.1 hbs, rfl⟩
    · rintro ⟨b, bs, hb, hbs, rfl⟩
      rw [hb, ih.2 hbs]
      rfl

/-- A tree that was found is found again with more levels. -/
theorem tree?_of_le (h : g.tree? n x = some tree) (hm : n ≤ m) : g.tree? m x = some tree := by
  induction n generalizing m x tree with
  | zero => cases h
  | succ n ih =>
    obtain ⟨m, rfl⟩ : ∃ k, m = k + 1 := ⟨m - 1, by omega⟩
    rw [tree?] at h ⊢
    split
    · next hp => rwa [if_pos hp] at h
    · next hp =>
      rw [if_neg hp] at h
      obtain ⟨parts, hparts, rfl⟩ := Option.map_eq_some_iff.1 h
      have hparts' : (g.live x).slots.mapM (g.tree? m) = some parts :=
        mapM_eq_some_iff.2 ((mapM_eq_some_iff.1 hparts).imp fun _ _ hs => ih hs (by omega))
      rw [hparts']
      rfl

/-- Types that have trees have them within one number of levels. -/
theorem exists_forest {l : List Handle} (hl : ∀ s ∈ l, ∃ n tree, g.tree? n s = some tree) :
    ∃ n parts, l.mapM (g.tree? n) = some parts := by
  simp only [mapM_eq_some_iff]
  induction l with
  | nil => exact ⟨0, [], .nil⟩
  | cons s l ih =>
    obtain ⟨⟨n, tree, hs⟩, hl⟩ := List.forall_mem_cons.1 hl
    obtain ⟨m, parts, hparts⟩ := ih hl
    exact ⟨max n m, tree :: parts, .cons (tree?_of_le hs (le_max_left n m))
      (hparts.imp fun _ _ hp => tree?_of_le hp (le_max_right n m))⟩

/-- In a grounded graph every handle has a tree. -/
theorem Grounded.exists_tree (hg : g.Grounded) (h : Handle) :
    ∃ n tree, g.tree? n h = some tree := by
  suffices hall : ∀ x h, g.resolve h = x → ∃ n tree, g.tree? n h = some tree from hall _ h rfl
  intro x
  induction x using hg.induction with
  | _ x ih =>
    rintro h rfl
    obtain ⟨n, parts, hparts⟩ := exists_forest (l := (g.live h).slots) fun s hs =>
      ih (g.resolve s) (List.mem_map_of_mem hs) s rfl
    by_cases hp : (g.live h).isPlaceholder
    · exact ⟨1, .placeholder (g.resolve h), by rw [tree?, if_pos hp]⟩
    · exact ⟨n + 1, .node (g.live h).shape parts, by rw [tree?, if_neg hp, hparts, Option.map_some]⟩

theorem mapM_eq_of_forall₂ {α β γ : Type} {f : α → Option γ} {f' : β → Option γ} {l : List α}
    {l' : List β} (h : List.Forall₂ (fun a b => f a = f' b) l l') : l.mapM f = l'.mapM f' := by
  induction h with
  | nil => rfl
  | cons hab _ ih => rw [List.mapM_cons, List.mapM_cons, hab, ih]

theorem not_isUniqued_of_isPlaceholder {n : Node} (hp : n.isPlaceholder) :
    n.kind.isUniqued = false := by
  rw [Node.isPlaceholder, decide_eq_true_eq] at hp
  exact congrArg Kind.isUniqued hp

/-- Types that unfold alike have the same trees. -/
theorem IsBisimulation.tree?_eq (hR : g.IsBisimulation g' R) (n : Nat)
    (hxy : R (g.resolve x) (g'.resolve y)) : g'.tree? n y = g.tree? n x := by
  induction n generalizing x y with
  | zero => rfl
  | succ n ih =>
    obtain ⟨hshape, hself, hslots⟩ := hR _ _ hxy
    have hsame : (g'.live y).isPlaceholder = (g.live x).isPlaceholder := by
      unfold Node.isPlaceholder Node.kind live
      rw [hshape]
    rw [tree?, tree?, hsame]
    split
    · next hp => rw [hself (not_isUniqued_of_isPlaceholder hp)]
    · have hforest : (g.live x).slots.mapM (g.tree? n) = (g'.live y).slots.mapM (g'.tree? n) :=
        mapM_eq_of_forall₂ (hslots.imp fun s t hst => (ih hst).symm)
      rw [hforest]
      unfold live
      rw [hshape]

/-! ## Graphs of the same types -/

theorem SameUnfolding.resolve_eq_of_not_uniqued (h : g.SameUnfolding g' x y)
    (hu : (g.live x).kind.isUniqued = false) : g.resolve x = g'.resolve y := by
  obtain ⟨R, hR, hxy⟩ := h
  exact (hR _ _ hxy).eq_of_not_uniqued hu

theorem SameUnfolding.shape_eq (h : g.SameUnfolding g' x y) :
    (g.live x).shape = (g'.live y).shape := by
  obtain ⟨R, hR, hxy⟩ := h
  exact (hR _ _ hxy).shape_eq

/-- What a type reaches, a type that unfolds alike reaches a counterpart of. -/
theorem IsBisimulation.exists_reaches (hR : g.IsBisimulation g' R) (hr : g.Reaches x z)
    (hxy : R x y) : ∃ w, g'.Reaches y w ∧ R z w := by
  induction hr generalizing y with
  | refl => exact ⟨y, .refl y, hxy⟩
  | step hb _ ih =>
    obtain ⟨s, hs, rfl⟩ := List.mem_map.1 hb
    obtain ⟨t, ht, hst⟩ := exists_of_forall₂ (hR _ _ hxy).slots.flip hs
    obtain ⟨w, hw, hzw⟩ := ih hst
    exact ⟨w, .step (List.mem_map_of_mem ht) hw, hzw⟩

/-- What a live type reaches is live. -/
theorem WellFormed.live_of_reaches (hwf : g.WellFormed) (hr : g.Reaches x y) (hl : g.Live x) :
    g.Live y := by
  refine hr.of_closed (fun u _ v hv => ?_) hl
  obtain ⟨s, -, rfl⟩ := List.mem_map.1 hv
  exact hwf.live_resolve s

/-- A type that unfolds like an abstract one is abstract, since it reaches the same placeholder. -/
theorem SameUnfolding.isAbstract (h : g.SameUnfolding g' x y) (hg : Reachable g)
    (hg' : Reachable g') (ha : g.isAbstract x) : g'.isAbstract y := by
  obtain ⟨R, hR, hxy⟩ := h
  have hwf' := hg'.consistent.wellFormed
  have hdelayed : g.AllDelayed (Due []) := hg.allDelayed.mono fun _ _ hn => hn.elim
  obtain ⟨p, -, hp, hr⟩ := hg.consistent.exists_placeholder (hdelayed _ ha) ha
  obtain ⟨q, hq, hpq⟩ := hR.exists_reaches hr hxy
  obtain rfl : p = q := (hR _ _ hpq).eq_of_not_uniqued (not_isUniqued_of_isPlaceholder hp)
  have hp' : (g'.node p).isPlaceholder := isPlaceholder_of_shape (hR _ _ hpq).shape_eq.symm hp
  by_contra hconcrete
  have hfalse := hwf'.concrete_of_reaches hq (Bool.eq_false_iff.2 hconcrete)
  rw [hwf'.isAbstract_of_placeholder (hwf'.live_of_reaches hq (hwf'.live_resolve y)) hp'] at hfalse
  cases hfalse

namespace SameTypes

variable (hs : g.SameTypes g')

include hs

theorem symm : g'.SameTypes g := ⟨hs.size_eq.symm, fun h => (hs.sameUnfolding h).symm⟩

theorem trans (hs' : g'.SameTypes g'') : g.SameTypes g'' :=
  ⟨hs'.size_eq.trans hs.size_eq, fun h => (hs.sameUnfolding h).trans (hs'.sameUnfolding h)⟩

/-- Handles that stand for one type in one graph unfold alike in the other. -/
theorem resolve_eq (hg' : TreeReachable g') (h : g.resolve x = g.resolve y) :
    g'.resolve x = g'.resolve y := by
  refine hg'.grounded.resolve_eq hg'.reachable.consistent ((hs.sameUnfolding x).symm.trans ?_)
  obtain ⟨R, hR, hy⟩ := hs.sameUnfolding y
  exact ⟨R, hR, by rwa [h]⟩

theorem isAbstract_eq (hg : Reachable g) (hg' : Reachable g') (h : Handle) :
    g'.isAbstract h = g.isAbstract h :=
  Bool.eq_iff_iff.2 ⟨(hs.symm.sameUnfolding h).isAbstract hg' hg,
    (hs.sameUnfolding h).isAbstract hg hg'⟩

/-- The other graph has no fewer live types of a sort, since each stands for one of that sort there
and no two for the same. -/
theorem countP_le (hg : TreeReachable g) (hg' : TreeReachable g') (P : Shape → Bool → Bool) :
    (g.handles.countP fun h => !(g.node h).isRetired && P (g.node h).shape (g.node h).isAbstract) ≤
      g'.handles.countP fun h =>
        !(g'.node h).isRetired && P (g'.node h).shape (g'.node h).isAbstract := by
  have hwf' := hg'.reachable.consistent.wellFormed
  rw [List.countP_eq_length_filter, List.countP_eq_length_filter, ← List.length_map g'.resolve]
  refine (List.subperm_of_subset ((g.nodup_handles.filter _).map_on ?_) ?_).length_le
  · intro x hx y hy hxy
    simp only [List.mem_filter, Bool.and_eq_true, Bool.not_eq_true',
      isRetired_eq_false_iff] at hx hy
    have hback := hs.symm.resolve_eq hg hxy
    rwa [hx.2.1.resolve_eq, hy.2.1.resolve_eq] at hback
  · intro k hk
    obtain ⟨x, hx, rfl⟩ := List.mem_map.1 hk
    simp only [List.mem_filter, mem_handles, Bool.and_eq_true, Bool.not_eq_true',
      isRetired_eq_false_iff] at hx ⊢
    obtain ⟨hlt, hl, hP⟩ := hx
    have hshape := (hs.sameUnfolding x).shape_eq
    have habs := hs.isAbstract_eq hg.reachable hg'.reachable x
    unfold live at hshape
    unfold Graph.isAbstract live at habs
    rw [hl.resolve_eq] at hshape habs
    exact ⟨hwf'.resolve_lt (hs.size_eq ▸ hlt), hwf'.live_resolve x, by rwa [← hshape, habs]⟩

/-- Both graphs have the same number of live types of a sort. -/
theorem countP_eq (hg : TreeReachable g) (hg' : TreeReachable g') (P : Shape → Bool → Bool) :
    (g'.handles.countP fun h =>
        !(g'.node h).isRetired && P (g'.node h).shape (g'.node h).isAbstract) =
      g.handles.countP fun h => !(g.node h).isRetired && P (g.node h).shape (g.node h).isAbstract :=
  Nat.le_antisymm (hs.symm.countP_le hg' hg P) (hs.countP_le hg hg' P)

/-- **Survivors aside.** Graphs of the same types, made without cycles, say the same of all
handles. -/
theorem sameOutcome (hg : TreeReachable g) (hg' : TreeReachable g') : g.SameOutcome g' where
  resolve_eq_iff _ _ := ⟨hs.resolve_eq hg', hs.symm.resolve_eq hg⟩
  isAbstract_eq := hs.isAbstract_eq hg.reachable hg'.reachable
  liveCount_eq := by
    have hcount := hs.countP_eq hg hg' fun _ _ => true
    simp only [Bool.and_true] at hcount
    rwa [← liveCount_eq_countP, ← liveCount_eq_countP] at hcount
  canonicalCount_eq := by
    rw [hg.reachable.consistent.coherent.canonicalCount_eq,
      hg'.reachable.consistent.coherent.canonicalCount_eq]
    simp only [Bool.and_assoc]
    exact hs.countP_eq hg hg' fun s isAbstract => s.kind.isUniqued && !isAbstract
  provisionalCount_eq := by
    rw [hg.reachable.consistent.coherent.provisionalCount_eq,
      hg'.reachable.consistent.coherent.provisionalCount_eq]
    simp only [Bool.and_assoc]
    exact hs.countP_eq hg hg' fun s isAbstract => s.kind.isUniqued && isAbstract
  tree?_eq n h := by
    obtain ⟨R, hR, hh⟩ := hs.sameUnfolding h
    exact hR.tree?_eq n hh
  exists_tree := hg.grounded.exists_tree

end SameTypes

/-! ## Retiring a placeholder -/

/-- A refinement leads to the types that are there when its type is retired. -/
theorem Reachable.sameTypes_begin (hg : Reachable g) (hnew : new.index < g.size)
    (h : g.refine old new = .ok (g', events)) : (g.begin old new).SameTypes g' :=
  ⟨(hg.size_refine hnew h).trans (size_begin ..).symm, hg.sameUnfolding_begin hnew h⟩

section Begin

variable (hs : g.SameTypes g') (hwf : g.WellFormed) (hwf' : g'.WellFormed)
  (hr : g.Refinable old new) (hr' : g'.Refinable old new)
  (hu : (g.node old).kind.isUniqued = false)

include hs hr hr' hu

/-- Types that unfold alike stand for the placeholder in both graphs or in none. -/
theorem SameUnfolding.resolve_eq_iff (h : g.SameUnfolding g' x y) :
    g.resolve x = old ↔ g'.resolve y = old := by
  have hu' : (g'.node old).kind.isUniqued = false := by
    have hshape := (hs.sameUnfolding old).shape_eq
    unfold live at hshape
    rw [resolve_of_forward_none hr.forward_eq, resolve_of_forward_none hr'.forward_eq] at hshape
    rwa [Node.kind, ← hshape]
  constructor
  · intro hx
    rw [← h.resolve_eq_of_not_uniqued (by rwa [live, hx]), hx]
  · intro hy
    rw [← h.symm.resolve_eq_of_not_uniqued (by rwa [live, hy]), hy]

include hwf hwf'

/-- What types that unfold alike stand for once the placeholder is retired did unfold alike. -/
theorem SameUnfolding.resolve_begin (h : g.SameUnfolding g' x y) :
    g.SameUnfolding g' ((g.begin old new).resolve x) ((g'.begin old new).resolve y) := by
  have hiff := h.resolve_eq_iff hs hr hr' hu
  rw [Graph.resolve_begin hr x hwf, Graph.resolve_begin hr' y hwf']
  by_cases hx : g.resolve x = old
  · rw [if_pos hx, if_pos (hiff.1 hx)]
    exact (hs.sameUnfolding new).resolved hwf hwf'
  · rw [if_neg hx, if_neg fun hy => hx (hiff.2 hy)]
    exact h.resolved hwf hwf'

/-- Retiring a placeholder in two graphs of the same types leaves two graphs of the same types. -/
theorem SameTypes.begin (hlt : new.index < g.size) :
    (g.begin old new).SameTypes (g'.begin old new) := by
  have hlive := (hwf.begin hr hlt).live_resolve
  have hlive' := (hwf'.begin hr' (hs.size_eq ▸ hlt)).live_resolve
  refine ⟨by rw [size_begin, size_begin, hs.size_eq], fun h => ⟨fun x y => g.SameUnfolding g' x y ∧
    (g.begin old new).Live x ∧ (g'.begin old new).Live y, ?_,
    (hs.sameUnfolding h).resolve_begin hs hwf hwf' hr hr' hu, hlive h, hlive' h⟩⟩
  rintro x y ⟨⟨R, hR, hxy⟩, hx, hy⟩
  obtain ⟨hne, hx⟩ := (live_begin hr x).1 hx
  obtain ⟨hne', hy⟩ := (live_begin hr' y).1 hy
  rw [hx.resolve_eq, hy.resolve_eq] at hxy
  obtain ⟨hshape, hself, hslots⟩ := hR x y hxy
  refine ⟨?_, ?_, ?_⟩
  · rwa [shape_begin hr, shape_begin hr']
  · rwa [Node.kind, shape_begin hr]
  · rw [slots_begin hr, slots_begin hr', if_neg hne, if_neg hne']
    refine hslots.imp fun s t hst => ⟨?_, hlive s, hlive' t⟩
    exact SameUnfolding.resolve_begin hs hwf hwf' hr hr' hu ⟨R, hR, hst⟩

end Begin

/-! ## Two placeholders -/

theorem Fillable.refinable (hf : g.Fillable o new) (hwf : g.WellFormed) : g.Refinable o new where
  forward_eq := hf.live
  isAbstract := hwf.isAbstract_of_placeholder hf.live hf.isPlaceholder
  ne := by
    intro heq
    apply hf.not_reaches
    rw [heq]
    exact .refl o

namespace Independent

variable (hi : g.Independent a fa b fb)

include hi

theorem symm : g.Independent b fb a fa :=
  ⟨hi.right, hi.left, hi.ne.symm, hi.right_avoids, hi.left_avoids⟩

/-- The refinement of one placeholder leaves the other to be refined. -/
theorem fillable_refine (hg : Reachable g) (h : g.refine a fa = .ok (g', events)) :
    g'.Fillable b fb := by
  have hwf := hg.consistent.wellFormed
  have hg' := hg.refine (refinable_of_refine h).old_lt hi.left.lt h
  have hkeep := hg.untouched_refine hi.left.lt h fun hr =>
    hi.ne (hwf.eq_of_reaches hi.right.live hi.right.isPlaceholder hr).symm
  have hfill := hg.untouched_refine hi.left.lt h hi.right_avoids
  -- what the second replacement stands for is as it was
  have hres : g'.resolve fb = g.resolve fb := by
    have hstand := (hg.coarsens_refine hi.left.lt h).resolve_eq (hwf.forwardsEnd.resolve_resolve fb)
    rw [← hstand, (hfill.live_iff.2 (hwf.live_resolve fb)).resolve_eq]
  refine ⟨hkeep.live_iff.2 hi.right.live,
    isPlaceholder_of_shape (Node.shape_of_bare hkeep.bare_eq) hi.right.isPlaceholder, ?_, ?_⟩
  · rw [hg.size_refine hi.left.lt h]
    exact hi.right.lt
  · rw [hres]
    exact fun hr => hi.right.not_reaches
      (hg.reaches_of_reaches_refine hi.left.lt h hr hi.right_avoids)

/-- The second replacement does not stand for the first placeholder. -/
theorem resolve_begin (hwf : g.WellFormed) : (g.begin a fa).resolve fb = g.resolve fb := by
  rw [Graph.resolve_begin (hi.left.refinable hwf) fb hwf, if_neg]
  intro heq
  apply hi.right_avoids
  rw [heq]
  exact .refl a

/-- Once one placeholder is retired the other can still be. -/
theorem refinable_begin (hwf : g.WellFormed) : (g.begin a fa).Refinable b fb := by
  have hr := hi.left.refinable hwf
  have hr' := hi.right.refinable hwf
  refine ⟨?_, ?_, ?_⟩
  · rw [forward_begin hr, if_neg hi.ne.symm, hr'.forward_eq]
  · rw [isAbstract_begin hr, if_neg hi.ne.symm, hr'.isAbstract]
  · rw [hi.resolve_begin hwf]
    exact hr'.ne

/-- Both orders of retiring the placeholders lead to graphs of the same types. -/
theorem sameTypes_begin (hwf : g.WellFormed) :
    ((g.begin a fa).begin b fb).SameTypes ((g.begin b fb).begin a fa) := by
  have hr := hi.left.refinable hwf
  have hr' := hi.right.refinable hwf
  have hboth := hi.refinable_begin hwf
  have hboth' := hi.symm.refinable_begin hwf
  have hsize : ((g.begin b fb).begin a fa).size = ((g.begin a fa).begin b fb).size := by
    rw [size_begin, size_begin, size_begin, size_begin]
  refine ⟨hsize, (SameTargets.of_slots hsize (fun k => ?_) (fun k => ?_) fun k => ?_).sameUnfolding⟩
  · rw [forward_begin hboth, forward_begin hboth', forward_begin hr, forward_begin hr',
      hi.resolve_begin hwf, hi.symm.resolve_begin hwf]
    by_cases hk : k = a
    · rw [if_pos hk, if_pos hk, if_neg (hk ▸ hi.ne)]
    · rw [if_neg hk, if_neg hk]
  · rw [shape_begin hboth, shape_begin hboth', shape_begin hr, shape_begin hr']
  · rw [slots_begin hboth, slots_begin hboth', slots_begin hr, slots_begin hr']
    by_cases hk : k = a
    · rw [if_pos hk, if_pos hk, ite_self]
    · rw [if_neg hk, if_neg hk]

/-- One order of both refinements leads to the types that are there when both are retired. -/
theorem sameTypes_refine (hg : Reachable g) (h₁ : g.refine a fa = .ok (g₁, events))
    (h₁₂ : g₁.refine b fb = .ok (g₁₂, events')) :
    ((g.begin a fa).begin b fb).SameTypes g₁₂ := by
  have hwf := hg.consistent.wellFormed
  have hr := hi.left.refinable hwf
  have hg₁ := hg.refine hr.old_lt hi.left.lt h₁
  have hlt : fb.index < (g.begin a fa).size := by
    rw [size_begin]
    exact hi.right.lt
  have hplain : ((g.begin a fa).node b).kind.isUniqued = false := by
    rw [Node.kind, shape_begin hr]
    exact not_isUniqued_of_isPlaceholder hi.right.isPlaceholder
  have hfirst := hg.sameTypes_begin hi.left.lt h₁
  exact (hfirst.begin (hwf.begin hr hi.left.lt) hg₁.consistent.wellFormed (hi.refinable_begin hwf)
    (refinable_of_refine h₁₂) hplain hlt).trans (hg₁.sameTypes_begin (hfirst.size_eq ▸ hlt) h₁₂)

end Independent

/-! ## Commutation -/

/-- Both refinements are possible in this order. -/
theorem Independent.exists_refine (hi : g.Independent a fa b fb) (hg : TreeReachable g) :
    ∃ g₁ events g₁₂ events', g.refine a fa = .ok (g₁, events) ∧
      g₁.refine b fb = .ok (g₁₂, events') ∧ TreeReachable g₁₂ ∧
      ((g.begin a fa).begin b fb).SameTypes g₁₂ := by
  obtain ⟨g₁, events, h₁, hg₁, -, -⟩ := hg.exists_refine_placeholder hi.left.live
    hi.left.isPlaceholder hi.left.lt hi.left.not_reaches
  have hright := hi.fillable_refine hg.reachable h₁
  obtain ⟨g₁₂, events', h₁₂, hg₁₂, -, -⟩ := hg₁.exists_refine_placeholder hright.live
    hright.isPlaceholder hright.lt hright.not_reaches
  exact ⟨g₁, events, g₁₂, events', h₁, h₁₂, hg₁₂, hi.sameTypes_refine hg.reachable h₁ h₁₂⟩

/-- **Commutation.** In a graph without cycles two placeholders can be refined in both orders, each
to a type that reaches neither. Both orders have one outcome. -/
theorem TreeReachable.refinements_commute (hg : TreeReachable g) (hi : g.Independent a fa b fb) :
    ∃ g₁ e₁ g₁₂ e₁₂ g₂ e₂ g₂₁ e₂₁, g.refine a fa = .ok (g₁, e₁) ∧
      g₁.refine b fb = .ok (g₁₂, e₁₂) ∧ g.refine b fb = .ok (g₂, e₂) ∧
      g₂.refine a fa = .ok (g₂₁, e₂₁) ∧ g₁₂.SameOutcome g₂₁ := by
  have hwf := hg.reachable.consistent.wellFormed
  obtain ⟨g₁, e₁, g₁₂, e₁₂, h₁, h₁₂, hg₁₂, hs⟩ := hi.exists_refine hg
  obtain ⟨g₂, e₂, g₂₁, e₂₁, h₂, h₂₁, hg₂₁, hs'⟩ := hi.symm.exists_refine hg
  have hsame := (hs.symm.trans (hi.sameTypes_begin hwf)).trans hs'
  exact ⟨g₁, e₁, g₁₂, e₁₂, g₂, e₂, g₂₁, e₂₁, h₁, h₁₂, h₂, h₂₁, hsame.sameOutcome hg₁₂ hg₂₁⟩

set_option maxRecDepth 10000 in
/-- Two placeholders refined to one type. The pointers to them become one, and the first to be told
survives. -/
theorem refinements_commute_pointers : ∃ g g₁ e₁ g₁₂ e₁₂ g₂ e₂ g₂₁ e₂₁, initial.play
    [.placeholder, .placeholder, .pointer ⟨9⟩, .pointer ⟨10⟩, .struct [⟨11⟩, ⟨12⟩] false,
      .struct [⟨12⟩, ⟨11⟩] false] = some g ∧ TreeReachable g ∧ g.Independent ⟨9⟩ .i8 ⟨10⟩ .i8 ∧
    g.refine ⟨9⟩ .i8 = .ok (g₁, e₁) ∧ g₁.refine ⟨10⟩ .i8 = .ok (g₁₂, e₁₂) ∧
    g.refine ⟨10⟩ .i8 = .ok (g₂, e₂) ∧ g₂.refine ⟨9⟩ .i8 = .ok (g₂₁, e₂₁) ∧
    g₁₂.SameOutcome g₂₁ ∧ g₁₂.resolve ⟨12⟩ = ⟨11⟩ ∧ g₂₁.resolve ⟨11⟩ = ⟨12⟩ := by
  have h : ((initial.play
      [.placeholder, .placeholder, .pointer ⟨9⟩, .pointer ⟨10⟩, .struct [⟨11⟩, ⟨12⟩] false,
        .struct [⟨12⟩, ⟨11⟩] false]).bind fun g =>
      (g.refine ⟨9⟩ .i8).toOption.bind fun out₁ =>
      (out₁.1.refine ⟨10⟩ .i8).toOption.bind fun out₁₂ =>
      (g.refine ⟨10⟩ .i8).toOption.bind fun out₂ =>
      (out₂.1.refine ⟨9⟩ .i8).toOption.map fun out₂₁ =>
        ((g.size, (g.node ⟨9⟩).forward, (g.node ⟨9⟩).shape, (g.node ⟨10⟩).forward,
            (g.node ⟨10⟩).shape),
          (g.resolve .i8, (reachFrom g.size g.targets (g.targets .i8)).contains ⟨9⟩,
            (reachFrom g.size g.targets (g.targets .i8)).contains ⟨10⟩),
          (out₁₂.1.resolve ⟨12⟩, out₂₁.1.resolve ⟨11⟩))) =
      some ((15, none, .placeholder, none, .placeholder), (.i8, false, false), (⟨11⟩, ⟨12⟩)) := by
    cbv
  obtain ⟨g, hg, h⟩ := Option.bind_eq_some_iff.1 h
  obtain ⟨⟨g₁, e₁⟩, h₁, h⟩ := Option.bind_eq_some_iff.1 h
  obtain ⟨⟨g₁₂, e₁₂⟩, h₁₂, h⟩ := Option.bind_eq_some_iff.1 h
  obtain ⟨⟨g₂, e₂⟩, h₂, h⟩ := Option.bind_eq_some_iff.1 h
  obtain ⟨⟨g₂₁, e₂₁⟩, h₂₁, h⟩ := Option.map_eq_some_iff.1 h
  simp only [Prod.mk.injEq] at h
  obtain ⟨⟨hsize, hlive, hshape, hlive', hshape'⟩, ⟨hres, havoid, havoid'⟩, hmerged, hmerged'⟩ := h
  have htree : TreeReachable g := (grows_of_play (by simp) hg).treeReachable .initial
  have hbounded := htree.reachable.consistent.wellFormed.targetsBounded
  have hnot := not_reaches_of_contains hbounded (by decide) havoid
  have hnot' := not_reaches_of_contains hbounded (by decide) havoid'
  rw [← hres] at hnot hnot'
  have hlt : Handle.i8.index < g.size := by
    rw [hsize]
    decide
  have hopen : (g.node ⟨9⟩).isPlaceholder := by
    rw [Node.isPlaceholder, Node.kind, hshape]
    rfl
  have hopen' : (g.node ⟨10⟩).isPlaceholder := by
    rw [Node.isPlaceholder, Node.kind, hshape']
    rfl
  have hi : g.Independent ⟨9⟩ .i8 ⟨10⟩ .i8 :=
    ⟨⟨hlive, hopen, hlt, hnot⟩, ⟨hlive', hopen', hlt, hnot'⟩, by decide, hnot', hnot⟩
  obtain ⟨_, _, _, _, _, _, _, _, r₁, r₁₂, r₂, r₂₁, hsame⟩ := htree.refinements_commute hi
  cases (eq_ok_of_toOption h₁).symm.trans r₁
  cases (eq_ok_of_toOption h₁₂).symm.trans r₁₂
  cases (eq_ok_of_toOption h₂).symm.trans r₂
  cases (eq_ok_of_toOption h₂₁).symm.trans r₂₁
  exact ⟨g, g₁, e₁, g₁₂, e₁₂, g₂, e₂, g₂₁, e₂₁, hg, htree, hi, r₁, r₁₂, r₂, r₂₁, hsame, hmerged,
    hmerged'⟩

end Graph

end TypeGraph
