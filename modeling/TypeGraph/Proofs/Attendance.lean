import TypeGraph.Proofs.Watchers

/-!
# Every observer of a replaced type is told

A type that is replaced gains no observers, and the task that tells them names all that are left.
So when the task has come to its end, nobody observes the type, and no slot and no subscription is
left behind on it.

`Advance.attended`: each advance keeps that. `Reachable.attended`: it holds between operations.
-/

namespace TypeGraph.Graph

/-- What holds of a graph, its listeners and the tasks left. -/
structure Attended (g : Graph) (agenda : List Task) : Prop extends Poised g agenda where
  watchers : g.WatchersCounted
  settle_of_tracked : ∀ {id h}, g.tracked? id = some h → ¬ g.Live h →
    ∃ new pending, .settle h new pending ∈ agenda
  mem_pending : ∀ {h new pending o}, .settle h new pending ∈ agenda →
    (g.node h).isObservedBy o → o ∈ pending
  holder_of_announce : ∀ {ty pending o}, .announce ty pending ∈ agenda → .owner o ∈ pending →
    (g.node o).isPlaceholder = false

variable {g g' : Graph} {h k old new owner : Handle} {id : ListenerId} {o : Observer}
  {agenda agenda' rest : List Task} {events : List Event}

/-! ## Replaced types gain no observers -/

/-- Who observes a replaced type after a listener moved did so before, and is not that listener. -/
theorem WatchersCounted.isObservedBy_move (hw : g.WatchersCounted)
    (hm : id ∈ (g.node old).watchers) (hlt : new.index < g.size) (hnew : g.Live new)
    (hk : ¬ g.Live k) (ho : ((g.moveListener id old new).1.node k).isObservedBy o) :
    (g.node k).isObservedBy o ∧ o ≠ .listener id := by
  have hk' : ¬ (g.moveListener id old new).1.Live k := by
    rwa [live_of_bare (bare_moveListener g old new k id)]
  cases o with
  | owner a =>
    rw [Node.isObservedBy_owner, owners_moveListener] at ho
    exact ⟨Node.isObservedBy_owner.2 ho, fun h => by cases h⟩
  | listener a =>
    rw [Node.isObservedBy_listener, (hw.move hm hlt hnew).mem_watchers_iff (.inr hk'),
      tracked?_moveListener (hw.tracked?_eq hm)] at ho
    split at ho
    · cases ho
      exact absurd hnew hk
    · next ha =>
      rw [Node.isObservedBy_listener, hw.mem_watchers_iff (.inr hk)]
      exact ⟨ho, fun h => by cases h; exact ha rfl⟩

/-- Who observes a replaced type after slots moved did so before, and is not the owner of slots that
moved away. -/
theorem OwnersCounted.isObservedBy_rewire (hc : g.OwnersCounted)
    (hc' : (g.rewire owner old new).OwnersCounted) (hnew : g.Live new) (hk : ¬ g.Live k)
    (ho : ((g.rewire owner old new).node k).isObservedBy o) :
    (g.node k).isObservedBy o ∧ ¬ (k = old ∧ o = .owner owner) := by
  cases o with
  | owner a =>
    obtain ⟨hs, hne⟩ := mem_slots_rewire hnew hk (hc'.mem_slots (Node.isObservedBy_owner.1 ho))
    rw [Node.isObservedBy_owner, hc.mem_owners_iff (.inr hk)]
    exact ⟨hs, fun h => hne ⟨h.1, by cases h.2; rfl⟩⟩
  | listener a =>
    rw [Node.isObservedBy_listener, watchers_rewire] at ho
    exact ⟨Node.isObservedBy_listener.2 ho, fun h => by cases h.2⟩

/-- Retiring a type adds no observer to any. -/
theorem isObservedBy_begin (ho : ((g.begin old new).node k).isObservedBy o) :
    (g.node k).isObservedBy o := by
  unfold Graph.begin at ho
  cases o with
  | owner a =>
    rw [Node.isObservedBy_owner, ← List.count_pos_iff] at ho ⊢
    rw [count_owners_retire] at ho
    omega
  | listener a =>
    rw [Node.isObservedBy_listener, watchers_retire] at ho
    exact Node.isObservedBy_listener.2 ho

/-! ## Owners of slots are no placeholders -/

/-- A type with slots is of a kind with one instance for each structure. -/
theorem WellFormed.isUniqued_of_mem_slots (hwf : g.WellFormed) (hs : k ∈ (g.node h).slots) :
    (g.node h).kind.isUniqued := by
  have hl : g.Live h := by
    by_contra hl
    rw [hwf.slots_of_retired hl] at hs
    cases hs
  have hlen : 0 < (g.node h).slots.length := List.length_pos_of_mem hs
  have htakes := hwf.takes hl
  unfold Node.kind
  cases hsh : (g.node h).shape with
  | function | struct | array | vector | pointer | integer => rfl
  | primitive | placeholder =>
    rw [hsh] at htakes
    exact absurd htakes (Nat.ne_of_gt hlen)

theorem not_isPlaceholder_of_isUniqued {n : Node} (hu : n.kind.isUniqued) :
    n.isPlaceholder = false := by
  unfold Node.isPlaceholder
  cases hk : n.kind <;> simp_all [Kind.isUniqued]

/-- Who is counted as an owner has slots, and so is no placeholder. -/
theorem Poised.not_isPlaceholder_of_owner (hp : g.Poised agenda)
    (ho : owner ∈ (g.node h).owners) : (g.node owner).isPlaceholder = false :=
  not_isPlaceholder_of_isUniqued (hp.wellFormed.isUniqued_of_mem_slots (hp.owners.mem_slots ho))

theorem isPlaceholder_congr (hs : (g'.node k).shape = (g.node k).shape) :
    (g'.node k).isPlaceholder = (g.node k).isPlaceholder := by
  unfold Node.isPlaceholder Node.kind
  rw [hs]

/-! ## Tasks done -/

namespace Attended

/-- With no task left every tracked type is live. -/
theorem live_of_tracked (ha : g.Attended []) (ht : g.tracked? id = some h) : g.Live h := by
  by_contra hl
  obtain ⟨_, _, hm⟩ := ha.settle_of_tracked ht hl
  cases hm

/-- A task that has nobody left to tell is about a type that nobody observes. -/
theorem observerCount_eq_zero (ha : g.Attended agenda) (hm : .settle old new [] ∈ agenda) :
    (g.node old).observerCount = 0 := by
  have hnone : ∀ o, ¬ (g.node old).isObservedBy o := fun o ho => by cases ha.mem_pending hm ho
  have howners : (g.node old).owners = [] := List.eq_nil_iff_forall_not_mem.2 fun a h =>
    hnone (.owner a) (Node.isObservedBy_owner.2 h)
  have hwatchers : (g.node old).watchers = [] := List.eq_nil_iff_forall_not_mem.2 fun a h =>
    hnone (.listener a) (Node.isObservedBy_listener.2 h)
  unfold Node.observerCount
  rw [howners, hwatchers]
  rfl

/-- An observer of a replaced type is done with if it observes the type no more, and no replaced
type gained an observer. -/
theorem told {pending : List Observer} (ha : g.Attended (.settle old new (o :: pending) :: rest))
    (hp : g'.Poised (.settle old new pending :: rest)) (hw : g'.WatchersCounted)
    (hlive : ∀ k, g'.Live k ↔ g.Live k)
    (htrack : ∀ id k, ¬ g.Live k → g'.tracked? id = some k → g.tracked? id = some k)
    (hobs : ∀ k o', ¬ g.Live k → (g'.node k).isObservedBy o' →
      (g.node k).isObservedBy o' ∧ ¬ (k = old ∧ o' = o))
    (hshape : ∀ k, (g'.node k).shape = (g.node k).shape) :
    g'.Attended (.settle old new pending :: rest) := by
  refine ⟨hp, hw, fun {id h} ht hl => ?_, fun {h new' pending' o'} hm ho => ?_,
    fun {ty pending' o'} hm ho => ?_⟩
  · have hl' : ¬ g.Live h := fun h' => hl ((hlive h).2 h')
    obtain ⟨new', pending', hm⟩ := ha.settle_of_tracked (htrack id h hl' ht) hl'
    rcases List.mem_cons.1 hm with heq | hm
    · cases heq
      exact ⟨_, _, List.mem_cons_self⟩
    · exact ⟨_, _, List.mem_cons_of_mem _ hm⟩
  · have hl : ¬ g.Live h := fun h' => hp.not_live_of_settle hm ((hlive h).2 h')
    obtain ⟨ho, hne⟩ := hobs h o' hl ho
    rcases List.mem_cons.1 hm with heq | hm
    · cases heq
      rcases List.mem_cons.1 (ha.mem_pending List.mem_cons_self ho) with rfl | hmem
      · exact absurd ⟨rfl, rfl⟩ hne
      · exact hmem
    · exact ha.mem_pending (List.mem_cons_of_mem _ hm) ho
  · rw [isPlaceholder_congr (hshape o')]
    rcases List.mem_cons.1 hm with heq | hm
    · cases heq
    · exact ha.holder_of_announce (List.mem_cons_of_mem _ hm) ho

/-- The observer left the replaced type meanwhile. -/
theorem pass {pending : List Observer} (ha : g.Attended (.settle old new (o :: pending) :: rest))
    (ho : (g.node old).isObservedBy o = false) : g.Attended (.settle old new pending :: rest) := by
  refine ha.told (ha.toPoised.drop fun owner howner heq => ?_) ha.watchers (fun _ => Iff.rfl)
    (fun _ _ _ ht => ht) (fun k o' _ ho' => ⟨ho', ?_⟩) fun _ => rfl
  · subst heq
    rw [Node.isObservedBy_owner.2 howner] at ho
    cases ho
  · rintro ⟨rfl, rfl⟩
    rw [ho] at ho'
    cases ho'

/-- A listener moves to the replacement. -/
theorem move {pending : List Observer}
    (ha : g.Attended (.settle old new (.listener id :: pending) :: rest))
    (hm : id ∈ (g.node old).watchers) :
    (g.moveListener id old (g.resolve new)).1.Attended (.settle old new pending :: rest) := by
  obtain ⟨hnew, hlt, -⟩ := ha.resolve_settle List.mem_cons_self
  have hb := fun k => g.bare_moveListener old (g.resolve new) k id
  have hp : g.Poised (.settle old new pending :: rest) :=
    ha.toPoised.drop fun _ _ heq => by cases heq
  refine ha.told
    (hp.congr (size_moveListener ..) (registry_moveListener ..) hb fun k => owners_moveListener ..)
    (ha.watchers.move hm hlt hnew) (fun k => live_of_bare (hb k)) (fun a k hk ht => ?_)
    (fun k o' hk ho => ?_) fun k => Node.shape_of_bare (hb k)
  · rw [tracked?_moveListener (ha.watchers.tracked?_eq hm)] at ht
    split at ht
    · cases ht
      exact absurd hnew hk
    · exact ht
  · obtain ⟨ho, hne⟩ := ha.watchers.isObservedBy_move hm hlt hnew hk ho
    exact ⟨ho, fun h => hne h.2⟩

/-- The slots of an owner move to the replacement. -/
theorem rewire {pending : List Observer}
    (ha : g.Attended (.settle old new (.owner owner :: pending) :: rest))
    (ho : owner ∈ (g.node old).owners) :
    (g.rewire owner old (g.resolve new)).Attended (.settle old new pending :: rest) := by
  obtain ⟨hnew, -, -⟩ := ha.resolve_settle List.mem_cons_self
  have hp := ha.toPoised.rewire ho
  have hsub := g.subscriptions_rewire owner old (g.resolve new)
  refine ha.told hp (ha.watchers.rewire owner old _) (fun k => live_rewire ..) (fun a k _ ht => ?_)
    (fun k o' hk ho => ha.owners.isObservedBy_rewire hp.owners hnew hk ho) fun k => shape_rewire ..
  rwa [tracked?_congr hsub] at ht

/-- A task is done of which nobody is left to be told. -/
theorem settled (ha : g.Attended (.settle old new [] :: rest)) : g.Attended rest := by
  have hzero := ha.observerCount_eq_zero List.mem_cons_self
  refine ⟨ha.toPoised.settled, ha.watchers, fun {id h} ht hl => ?_,
    fun hm => ha.mem_pending (List.mem_cons_of_mem _ hm),
    fun hm => ha.holder_of_announce (List.mem_cons_of_mem _ hm)⟩
  obtain ⟨new', pending, hm⟩ := ha.settle_of_tracked ht hl
  rcases List.mem_cons.1 hm with heq | hm
  · -- nobody tracks a type that nobody observes
    cases heq
    have hpos := List.length_pos_of_mem ((ha.watchers.mem_watchers_iff (.inr hl)).2 ht)
    unfold Node.observerCount at hzero
    omega
  · exact ⟨new', pending, hm⟩

/-- Telling of a concrete type comes to its end, or goes on. -/
theorem announce {ty : Handle} {pending : List Observer} {l : List Task}
    (ha : g.Attended (.announce ty pending :: rest))
    (hl : ∀ t ∈ l, ∃ told, t = .announce ty told ∧ told ⊆ pending) : g.Attended (l ++ rest) := by
  have hsettle : ∀ {old new pending}, .settle old new pending ∉ l := fun hm => by
    obtain ⟨_, heq, _⟩ := hl _ hm
    cases heq
  refine ⟨ha.toPoised.announce fun _ _ _ => hsettle, ha.watchers, fun {id h} ht hl => ?_,
    fun {h new' pending' o'} hm ho => ?_, fun {ty' pending' o'} hm ho => ?_⟩
  · obtain ⟨new', pending', hm⟩ := ha.settle_of_tracked ht hl
    rcases List.mem_cons.1 hm with heq | hm
    · cases heq
    · exact ⟨_, _, List.mem_append_right _ hm⟩
  · rcases List.mem_append.1 hm with hm | hm
    · exact absurd hm hsettle
    · exact ha.mem_pending (List.mem_cons_of_mem _ hm) ho
  · rcases List.mem_append.1 hm with hm | hm
    · obtain ⟨_, heq, hsub⟩ := hl _ hm
      cases heq
      exact ha.holder_of_announce List.mem_cons_self (hsub ho)
    · exact ha.holder_of_announce (List.mem_cons_of_mem _ hm) ho

/-! ## Types retired, registered and promoted -/

/-- All who observe a type when it is retired are to be told. -/
theorem begin (ha : g.Attended agenda) (hr : g.Refinable old new)
    (hp : (g.begin old new).Poised (g.settling old new :: agenda)) :
    (g.begin old new).Attended (g.settling old new :: agenda) := by
  have hsub : (g.begin old new).subscriptions = g.subscriptions := subscriptions_retire ..
  refine ⟨hp, ha.watchers.begin hr, fun {id h} ht hl => ?_,
    fun {h new' pending o'} hm ho => ?_, fun {ty pending o'} hm ho => ?_⟩
  · rw [tracked?_congr hsub] at ht
    by_cases hold : h = old
    · subst hold
      exact ⟨_, _, List.mem_cons_self⟩
    · have hl' : ¬ g.Live h := fun h' => hl ((live_begin hr h).2 ⟨hold, h'⟩)
      obtain ⟨new', pending, hm⟩ := ha.settle_of_tracked ht hl'
      exact ⟨_, _, List.mem_cons_of_mem _ hm⟩
  · rcases List.mem_cons.1 hm with heq | hm
    · cases heq
      exact Node.mem_observers.2 ho
    · exact ha.mem_pending hm (isObservedBy_begin ho)
  · rw [isPlaceholder_congr (shape_begin hr o')]
    rcases List.mem_cons.1 hm with heq | hm
    · cases heq
    · exact ha.holder_of_announce hm ho

theorem registerProvisional {key : Key} (ha : g.Attended agenda) (habs : (g.node h).isAbstract)
    (hk : g.keyOfNode h = .ok key) (hr : g.registerProvisional h key = .ok g') :
    g'.Attended agenda := by
  have hp := ha.toPoised.registerProvisional habs hk hr
  have hw := ha.watchers.registerProvisional hr
  obtain ⟨rfl, -, -⟩ := registerProvisional_eq_ok hr
  exact ⟨hp, hw, ha.settle_of_tracked, ha.mem_pending, ha.holder_of_announce⟩

/-- A promotion tells those who observed the promoted types, and no replaced type hears of it. -/
theorem promote {start : Handle} (ha : g.Attended agenda)
    (hp : (g.promote start).1.Poised ((g.promote start).2 ++ agenda)) :
    (g.promote start).1.Attended ((g.promote start).2 ++ agenda) := by
  have hsub : (g.promote start).1.subscriptions = g.subscriptions :=
    subscriptions_concretizeAll ..
  refine ⟨hp, ha.watchers.promote start, fun {id h} ht hl => ?_,
    fun {h new pending o} hm ho => ?_, fun {ty pending o} hm ho => ?_⟩
  · rw [live_promote] at hl
    rw [tracked?_congr hsub] at ht
    obtain ⟨new, pending, hm⟩ := ha.settle_of_tracked ht hl
    exact ⟨new, pending, List.mem_append_right _ hm⟩
  · rcases List.mem_append.1 hm with hm | hm
    · obtain ⟨_, _, heq⟩ := List.mem_map.1 hm
      cases heq
    · rw [node_promote_of_retired start (ha.not_live_of_settle hm)] at ho
      exact ha.mem_pending hm ho
  · rw [isPlaceholder_congr (shape_promote ..)]
    rcases List.mem_append.1 hm with hm | hm
    · obtain ⟨a, _, heq⟩ := List.mem_map.1 hm
      cases heq
      exact ha.not_isPlaceholder_of_owner (Node.owner_mem_observers.1 ho)
    · exact ha.holder_of_announce hm ho

end Attended

/-- **Attendance.** Each advance keeps all observers of replaced types among those to be told. -/
theorem Advance.attended (hx : Advance g agenda events g' agenda') (hc : g.Consistent agenda)
    (ha : g.Attended agenda) : g'.Attended agenda' := by
  have hp := (hx.consistent hc).toPoised
  cases hx with
  | settled => exact ha.settled
  | pass ho => exact ha.pass ho
  | move ho => exact ha.move ho
  | collapse ho hg hk he hr =>
    subst hg
    exact (ha.rewire ho).begin hr hp
  | keep ho hg hk he hr =>
    subst hg
    exact ((ha.rewire ho).registerProvisional (ha.isAbstract_told ho) hk hr).promote hp
  | announced => exact ha.announce (l := []) fun _ hm => by cases hm
  | promote =>
    refine Attended.promote (ha.announce (l := [_]) fun t hm => ?_) hp
    exact ⟨_, List.mem_singleton.1 hm, List.subset_cons_self _ _⟩
  | hear =>
    refine ha.announce (l := [_]) fun t hm => ?_
    exact ⟨_, List.mem_singleton.1 hm, List.subset_cons_self _ _⟩

/-! ## Between operations -/

theorem forward_intern {key : Key} (hk : g.Internable key) (h : Handle) :
    ((g.intern key).2.node h).forward = (g.node h).forward := by
  cases hl : g.registry.lookup key with
  | some k => rw [intern_of_lookup_some hl]
  | none =>
    rw [intern_of_lookup_none hk hl]
    exact forward_grow

theorem tracked?_intern {key : Key} (hk : g.Internable key) (id : ListenerId) :
    (g.intern key).2.tracked? id = g.tracked? id := by
  cases hl : g.registry.lookup key with
  | some k => rw [intern_of_lookup_some hl]
  | none =>
    rw [intern_of_lookup_none hk hl]
    exact tracked?_congr (subscriptions_grow key) id

/-- Between operations it is enough that what is tracked is live. -/
theorem Consistent.attended (hc : g.Consistent []) (hw : g.WatchersCounted)
    (hl : ∀ {id h}, g.tracked? id = some h → g.Live h) : g.Attended [] :=
  ⟨hc.toPoised, hw, fun ht hl' => absurd (hl ht) hl', fun hm => absurd hm List.not_mem_nil,
    fun hm => absurd hm List.not_mem_nil⟩

/-- Each effect leaves every subscription on a live type. -/
theorem Effect.attended (hx : Effect g g') (hc : g.Consistent []) (ha : g.Attended []) :
    g'.Attended [] := by
  have hc' := hx.changes.consistent hc
  cases hx with
  | intern hk =>
    refine hc'.attended (ha.watchers.intern hk) fun {id h} ht => ?_
    rw [tracked?_intern hk] at ht
    exact (live_congr (forward_intern hk h)).2 (ha.live_of_tracked ht)
  | placeholder =>
    refine hc'.attended ha.watchers.placeholder fun {id h} ht => ?_
    exact (live_push rfl).2 (ha.live_of_tracked ht)
  | refine hlt hr =>
    exact (hc.refine_induction hlt hr
      (fun href => ha.begin href (hc.begin href hlt).toPoised)
      fun hc ha hx => hx.attended hc ha).2
  | @subscribe ty id _ hs =>
    refine hc'.attended (ha.watchers.subscribe hc.wellFormed hs) fun {a h} ht => ?_
    rw [tracked?_subscribe hs] at ht
    rw [live_of_bare (bare_subscribe hs h)]
    split at ht
    · cases ht
      exact hc.wellFormed.live_resolve ty
    · exact ha.live_of_tracked ht
  | @unsubscribe id _ hu =>
    refine hc'.attended (ha.watchers.unsubscribe hu) fun {a h} ht => ?_
    rw [tracked?_unsubscribe hu] at ht
    rw [live_of_bare (bare_unsubscribe hu h)]
    split at ht
    · cases ht
    · exact ha.live_of_tracked ht
  | nothing => exact ha

theorem attended_scalars : scalars.Attended [] := by
  refine consistent_scalars.attended watchersCounted_scalars fun {id h} _ => ?_
  obtain ⟨p, hp⟩ := node_scalars h
  unfold Live
  rw [hp]
  rfl

/-- In a reachable graph nothing is left to be told. -/
theorem Reachable.attended (hg : Reachable g) : g.Attended [] :=
  hg.effect_induction attended_scalars fun hc ha hx => hx.attended hc ha

end TypeGraph.Graph
