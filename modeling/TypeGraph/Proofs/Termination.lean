import TypeGraph.Proofs.Observers
import TypeGraph.Proofs.Safety

/-!
# Refinement ends

A type that is retired is abstract no more, and neither is one that is promoted. No type has more
observers than there are types and subscriptions. So a refinement of the type itself, or the news
that it became concrete, adds less work than one abstract type is worth, and all else takes work
away: `cost` falls with each task (`Sound.cost_step_lt`).

`work` is the loop on fuel, and looks for observers again after all were told. The cost of a
refinement is fuel enough for it.
-/

namespace TypeGraph.Graph

/-- Does one task. Once all observers that a replaced type had were told, it looks whether there are
others by then. -/
def again (g : Graph) : Task → Outcome
  | .settle old new [] =>
    if (g.observers old).isEmpty then ⟨g, [], []⟩
    else ⟨g, [.settle old new (g.observers old)], []⟩
  | t => g.step t

/-- Works off an agenda with fuel for `n` tasks. -/
def work : Nat → Graph → List Task → List Event → Option (Except Fault (Graph × List Event))
  | _, g, [], heard => some (.ok (g, heard))
  | 0, _, _ :: _, _ => none
  | n + 1, g, t :: rest, heard =>
    match t.fault? with
    | some f => some (.error f)
    | none =>
      let out := g.again t
      work n out.graph (out.tasks ++ rest) (heard ++ out.events)

/-- The types and subscriptions, all of which might observe one type. -/
def crowd (g : Graph) : Nat := g.size + g.subscriptions.size

/-- The tasks that an agenda can lead to: an abstract type is worth all that it can add. -/
def cost (g : Graph) (agenda : List Task) : Nat :=
  g.abstractCount * (3 * g.crowd + 1) + weight agenda

/-- Fuel enough for a refinement. -/
def allowance (g : Graph) : Nat := g.abstractCount * (3 * g.crowd + 1) + 2

variable {g g' : Graph} {h old new owner start : Handle} {agenda agenda' rest : List Task}
  {events : List Event}

/-! ## The crowd -/

theorem nodup_eraseDups {α : Type} [DecidableEq α] : ∀ l : List α, l.eraseDups.Nodup
  | [] => by simp
  | a :: l => by
    rw [List.eraseDups_cons, List.nodup_cons]
    constructor
    · rw [List.mem_eraseDups, List.mem_filter]
      simp
    · exact nodup_eraseDups _
  termination_by l => l.length
  decreasing_by exact Nat.lt_succ_of_le (List.length_filter_le _ _)

/-- No type has more distinct observers than there are types and subscriptions. -/
theorem Attended.length_observers_le (ha : g.Attended agenda) (h : Handle) :
    (g.observers h).length ≤ g.crowd := by
  have howners : (g.node h).owners.eraseDups.length ≤ g.handles.length := by
    apply (List.subperm_of_subset (nodup_eraseDups _) fun o ho => ?_).length_le
    exact mem_handles.2 (ha.owners.lt_of_mem_owners (List.mem_eraseDups.1 ho))
  have hwatchers : (g.node h).watchers.eraseDups.length ≤ g.listeners.length := by
    apply (List.subperm_of_subset (nodup_eraseDups _) fun id hid => ?_).length_le
    exact mem_listeners.2 (lt_of_tracked? (ha.watchers.tracked?_eq (List.mem_eraseDups.1 hid)))
  unfold handles at howners
  unfold listeners at hwatchers
  unfold observers Node.observers crowd
  simp only [List.length_append, List.length_map, List.length_mergeSort, List.length_range]
    at howners hwatchers ⊢
  omega

theorem crowd_congr (hs : g'.size = g.size)
    (hsub : g'.subscriptions.size = g.subscriptions.size) : g'.crowd = g.crowd := by
  unfold crowd
  rw [hs, hsub]

theorem crowd_rewire (g : Graph) (owner old new : Handle) :
    (g.rewire owner old new).crowd = g.crowd :=
  crowd_congr (size_rewire ..) (congrArg Array.size (subscriptions_rewire ..))

theorem crowd_begin (g : Graph) (old new : Handle) : (g.begin old new).crowd = g.crowd :=
  crowd_congr (size_retire ..) (congrArg Array.size (subscriptions_retire ..))

theorem crowd_promote (g : Graph) (start : Handle) : (g.promote start).1.crowd = g.crowd :=
  crowd_congr (size_promote ..) (congrArg Array.size (subscriptions_concretizeAll ..))

theorem crowd_moveListener (g : Graph) (id : ListenerId) (old new : Handle) :
    (g.moveListener id old new).1.crowd = g.crowd := by
  apply crowd_congr (size_moveListener ..)
  unfold moveListener
  simp only
  split
  · rfl
  · exact Array.size_setIfInBounds

/-! ## The cost falls -/

/-- Each type of a group was abstract, and is so no more. -/
theorem abstractCount_concretizeAll_add_le {group : List Handle} (hnodup : group.Nodup)
    (habs : ∀ h ∈ group, (g.node h).isAbstract) :
    (g.concretizeAll group).abstractCount + group.length ≤ g.abstractCount := by
  induction group generalizing g with
  | nil => exact Nat.le_refl _
  | cons h group ih =>
    obtain ⟨hnot, hnodup⟩ := List.nodup_cons.1 hnodup
    obtain ⟨hh, habs⟩ := List.forall_mem_cons.1 habs
    have hlt : (g.concretizeAll [h]).abstractCount < g.abstractCount :=
      abstractCount_concretizeAll_lt hh
    have hrest := ih (g := g.concretize h) hnodup fun k hk => by
      have hne : k ≠ h := fun heq => hnot (heq ▸ hk)
      rw [node_concretize, if_neg hne]
      exact habs k hk
    show ((g.concretizeAll [h]).concretizeAll group).abstractCount + (group.length + 1) ≤ _
    exact (Nat.add_le_add_right hrest 1).trans hlt

theorem nodup_promotable (g : Graph) (start : Handle) : (g.promotable start).Nodup := by
  unfold promotable
  simp only
  split
  · exact List.nodup_nil
  · exact List.Nodup.filter _ (nodup_reachFrom ..)

theorem weight_announce_le (group : List Handle)
    (hlen : ∀ h, (g.observers h).length ≤ g.crowd) :
    weight (group.map fun h => .announce h (g.observers h)) ≤ group.length * (2 * g.crowd + 1) := by
  induction group with
  | nil => exact Nat.zero_le _
  | cons h group ih =>
    have hh := hlen h
    simp only [List.map_cons, weight, Task.weight, List.length_cons]
    rw [Nat.add_mul]
    omega

theorem cost_cons {t : Task} : cost g (t :: rest) = t.weight + cost g rest := by
  unfold cost
  rw [weight]
  omega

theorem cost_append {tasks : List Task} : cost g (tasks ++ rest) = weight tasks + cost g rest := by
  unfold cost
  rw [weight_append]
  omega

/-- Fewer abstract types in a crowd of the same size make all agendas cheaper. -/
theorem cost_add_le {n : Nat} (rest : List Task) (hcrowd : g'.crowd = g.crowd)
    (hcount : g'.abstractCount + n ≤ g.abstractCount) :
    cost g' rest + n * (3 * g.crowd + 1) ≤ cost g rest := by
  have hworth := Nat.mul_le_mul_right (3 * g.crowd + 1) hcount
  rw [Nat.add_mul] at hworth
  unfold cost
  rw [hcrowd]
  omega

/-- The types that a promotion makes concrete are worth the news of it. -/
theorem Attended.cost_promote_le (ha : g.Attended agenda) (start : Handle) (rest : List Task) :
    cost (g.promote start).1 ((g.promote start).2 ++ rest) ≤ cost g rest := by
  have hcount : (g.promote start).1.abstractCount + (g.promotable start).length ≤
      g.abstractCount := abstractCount_concretizeAll_add_le (g.nodup_promotable start)
    fun _ => isAbstract_of_mem_promotable
  have hcost := cost_add_le rest (crowd_promote g start) hcount
  have hweight : weight (g.promote start).2 ≤ (g.promotable start).length * (2 * g.crowd + 1) :=
    weight_announce_le (g.promotable start) ha.length_observers_le
  have hworth : (g.promotable start).length * (2 * g.crowd + 1) ≤
      (g.promotable start).length * (3 * g.crowd + 1) := Nat.mul_le_mul_left _ (by omega)
  rw [cost_append]
  omega

/-- A type that is retired is worth telling all who observe it. -/
theorem cost_begin_lt (hr : g.Refinable old new)
    (hlen : ((g.begin old new).observers old).length ≤ (g.begin old new).crowd) :
    cost (g.begin old new) (g.settling old new :: rest) < cost g (.refine old new :: rest) := by
  have hcount : (g.begin old new).abstractCount + 1 ≤ g.abstractCount :=
    abstractCount_retire_lt hr.isAbstract
  have hcost := cost_add_le rest (crowd_begin g old new) hcount
  rw [crowd_begin] at hlen
  rw [cost_cons, cost_cons]
  unfold settling Task.weight
  simp only
  omega

/-- Moving the slots of an owner leaves time to refine it. -/
theorem cost_rewire_le {pending : List Observer} :
    cost (g.rewire owner old (g.resolve new)) (.settle old new pending :: rest) + 3 ≤
      cost g (.settle old new (.owner owner :: pending) :: rest) := by
  have hcount : (g.rewire owner old (g.resolve new)).abstractCount ≤ g.abstractCount :=
    abstractCount_retarget_le ..
  have hcost := cost_add_le (n := 0) rest (crowd_rewire ..) hcount
  rw [cost_cons, cost_cons]
  unfold Task.weight
  simp only [List.length_cons]
  omega

theorem cost_registerProvisional {key : Key} (hr : g.registerProvisional h key = .ok g') :
    cost g' agenda = cost g agenda := by
  have hcount := abstractCount_registerProvisional hr
  obtain ⟨rfl, -, -⟩ := registerProvisional_eq_ok hr
  unfold cost
  rw [hcount]
  rfl

/-- The owner is refined once its slots have moved. -/
theorem cost_collapse_lt {existing : Handle} {pending : List Observer} :
    cost (g.rewire owner old (g.resolve new))
        (.refine owner existing :: .settle old new pending :: rest) <
      cost g (.settle old new (.owner owner :: pending) :: rest) := by
  rw [cost_cons]
  refine Nat.lt_of_lt_of_le ?_ cost_rewire_le
  show 2 + _ < _
  omega

theorem Advance.cost_lt (hx : Advance g agenda events g' agenda') (hs : g.Steady agenda) :
    cost g' agenda' < cost g agenda := by
  have hs' := hx.steady hs
  cases hx with
  | settled | pass | announced | hear =>
    simp only [cost_cons, Task.weight, List.length_cons]
    omega
  | @move old new id pending rest =>
    have hcount := g.abstractCount_moveListener_le id old (g.resolve new)
    have hcost := cost_add_le (n := 0) rest (crowd_moveListener ..) hcount
    simp only [cost_cons, Task.weight, List.length_cons]
    omega
  | collapse ho hg hk he hr =>
    subst hg
    exact (cost_begin_lt hr (hs'.attended.length_observers_le _)).trans cost_collapse_lt
  | @keep _ g₂ old new owner key pending rest ho hg hk he hr =>
    subst hg
    have habs := hs.attended.isAbstract_told ho
    have hready := (hs.attended.rewire ho).registerProvisional habs hk hr
    calc cost (g₂.promote owner).1 ((g₂.promote owner).2 ++ .settle old new pending :: rest)
      _ ≤ cost g₂ (.settle old new pending :: rest) := hready.cost_promote_le owner _
      _ = cost (g.rewire owner old (g.resolve new)) (.settle old new pending :: rest) :=
        cost_registerProvisional hr
      _ < cost g (.settle old new (.owner owner :: pending) :: rest) :=
        Nat.lt_of_lt_of_le (by omega) cost_rewire_le
  | @promote ty owner pending rest =>
    refine (hs.attended.cost_promote_le owner (.announce ty pending :: rest)).trans_lt ?_
    simp only [cost_cons, Task.weight, List.length_cons]
    omega

/-- **Cost.** Each task of a sound state lowers the cost. -/
theorem Sound.cost_step_lt {t : Task} (hs : Sound g (t :: rest)) :
    cost (g.step t).graph ((g.step t).tasks ++ rest) < cost g (t :: rest) := by
  cases hs with
  | @beginning old new _ hr hs =>
    show cost (g.refineStep old new).graph ((g.refineStep old new).tasks ++ rest) < _
    rw [hr.refineStep_eq]
    exact cost_begin_lt hr (hs.attended.length_observers_le old)
  | steady hs =>
    rcases hs.advance_of_step with hadv | ⟨old, new, owner, existing, pending, rfl, -, hstep⟩
    · exact hadv.cost_lt hs
    · rw [hstep]
      exact cost_collapse_lt

/-! ## Working on fuel -/

/-- A task that passes its checks leaves no observer to look for. -/
theorem Passes.again_eq {t : Task} (h : g.Passes t) : g.again t = g.step t := by
  unfold again
  split
  · next old new =>
    have hzero : (g.node old).observerCount = 0 := h
    have hnil : g.observers old = [] := by
      unfold Node.observerCount at hzero
      apply observers_eq_nil <;> apply List.eq_nil_of_length_eq_zero <;> omega
    unfold step settleStep
    simp only
    rw [hnil, if_pos hzero]
    rfl
  · rfl

/-- From a sound state the cost is fuel enough to do what `run` does. -/
theorem Sound.work_eq (hs : Sound g agenda) (heard : List Event) {fuel : Nat}
    (hfuel : cost g agenda ≤ fuel) : work fuel g agenda heard = some (g.run agenda heard) := by
  induction fuel generalizing g agenda heard with
  | zero =>
    cases agenda with
    | nil => rw [work, run]
    | cons t rest =>
      have hlt := hs.cost_step_lt
      omega
  | succ fuel ih =>
    cases agenda with
    | nil => rw [work, run]
    | cons t rest =>
      have hlt := hs.cost_step_lt
      have hrest := ih hs.step (heard ++ (g.step t).events) (by omega)
      rw [work, run, hs.passes.again_eq]
      cases hf : t.fault? with
      | some f => rfl
      | none => exact hrest

/-- A misused refinement gives up within two tasks. -/
theorem Misused.work_eq {f : Fault} (h : Misused g (.refine old new) (.fault f))
    (heard : List Event) (fuel : Nat) :
    work (fuel + 2) g [.refine old new] heard = some (.error f) := by
  have hstep : g.again (.refine old new) = ⟨g, [.abort f], []⟩ := h.refineStep_eq
  rw [work]
  simp only [Task.fault?, hstep]
  rfl

/-- **Termination.** A refinement in a reachable graph ends, within as many tasks as its allowance
counts, and looking for observers again finds none. If its types can be refined it succeeds. -/
theorem Reachable.work_eq_refine (hg : Reachable g) (hlt : new.index < g.size) {fuel : Nat}
    (hfuel : g.allowance ≤ fuel) :
    work fuel g [.refine old new] [] = some (g.refine old new) ∧
      (g.Refinable old new → ∃ out, g.refine old new = .ok out) := by
  constructor
  · rcases g.refinable_or_misused old new with hr | ⟨f, hm⟩
    · exact (hg.sound hr hlt).work_eq [] hfuel
    · obtain ⟨n, rfl⟩ : ∃ n, fuel = n + 2 := ⟨fuel - 2, by unfold allowance at hfuel; omega⟩
      rw [hm.refine_eq]
      exact hm.work_eq [] n
  · exact fun hr => (hg.sound hr hlt).exists_run []

set_option maxRecDepth 10000 in
/-- Two structures that hold pointers to both. When the second one is closed, the pointers collapse
into each other and then the structures, by refinements within the refinement. -/
theorem work_eq_refine_mutual : ∃ g, initial.play
    [.placeholder, .placeholder, .pointer ⟨9⟩, .pointer ⟨10⟩, .struct [⟨11⟩, ⟨12⟩] false,
      .struct [⟨12⟩, ⟨11⟩] false, .refine ⟨9⟩ ⟨13⟩] = some g ∧
    g.Refinable ⟨10⟩ ⟨14⟩ ∧ g.allowance = 232 ∧
    work 232 g [.refine ⟨10⟩ ⟨14⟩] [] = some (g.refine ⟨10⟩ ⟨14⟩) ∧
    ∃ out, g.refine ⟨10⟩ ⟨14⟩ = .ok out := by
  have h : ((initial.play
      [.placeholder, .placeholder, .pointer ⟨9⟩, .pointer ⟨10⟩, .struct [⟨11⟩, ⟨12⟩] false,
        .struct [⟨12⟩, ⟨11⟩] false, .refine ⟨9⟩ ⟨13⟩]).map fun g =>
      (g.size, g.allowance, (g.node ⟨10⟩).forward, (g.node ⟨10⟩).isAbstract, g.resolve ⟨14⟩)) =
        some (15, 232, none, true, ⟨14⟩) := by cbv
  obtain ⟨g, hg, heq⟩ := Option.map_eq_some_iff.1 h
  simp only [Prod.mk.injEq] at heq
  obtain ⟨hsize, hallowance, hlive, habs, hnew⟩ := heq
  have hr : g.Refinable ⟨10⟩ ⟨14⟩ := ⟨hlive, habs, by rw [hnew]; decide⟩
  have hlt : (⟨14⟩ : Handle).index < g.size := by
    rw [hsize]
    decide
  obtain ⟨hwork, hok⟩ := (Reachable.initial.play hg).work_eq_refine hlt hallowance.le
  exact ⟨g, hg, hr, hallowance, hwork, hok hr⟩

end TypeGraph.Graph
