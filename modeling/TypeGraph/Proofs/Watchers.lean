import TypeGraph.Proofs.Histories

/-!
# The watchers of a type are the subscriptions that track it

A type that is abstract, or retired and still watched, counts each subscription that tracks it once
and no other. A concrete type counts none: a subscription whose type became concrete still names it,
but is released. Counting is tied to what subscriptions track just as owners are tied to slots.
-/

namespace TypeGraph.Graph

/-- Abstract and retired types count the subscriptions that track them, and concrete types count
none. What is tracked is in the arena. -/
structure WatchersCounted (g : Graph) : Prop where
  count_eq : ∀ {h} (id : ListenerId), (g.node h).isAbstract ∨ ¬ g.Live h →
    (g.node h).watchers.count id = if g.tracked? id = some h then 1 else 0
  nil : ∀ {h}, g.Live h → (g.node h).isAbstract = false → (g.node h).watchers = []
  tracked_lt : ∀ {id h}, g.tracked? id = some h → h.index < g.size

variable {g g' : Graph} {h k old new : Handle} {id a : ListenerId} {ty : Option Handle}
  {agenda agenda' : List Task} {events : List Event}

/-! ## What a subscription tracks -/

theorem tracked?_congr (hs : g'.subscriptions = g.subscriptions) (id : ListenerId) :
    g'.tracked? id = g.tracked? id := by
  unfold tracked?
  rw [hs]

theorem lt_of_tracked? (ht : g.tracked? id = some h) : id.index < g.subscriptions.size := by
  unfold tracked? at ht
  by_contra hb
  rw [Array.getElem?_eq_none (Nat.le_of_not_lt hb)] at ht
  cases ht

/-- Setting what a subscription tracks leaves all others alone. -/
theorem tracked?_track (hid : id.index < g.subscriptions.size) :
    (g.track id ty).tracked? a = if a = id then ty else g.tracked? a := by
  unfold track tracked?
  rw [Array.getElem?_setIfInBounds]
  by_cases ha : a = id
  · rw [if_pos (congrArg ListenerId.index ha.symm), if_pos hid, if_pos ha]
    rfl
  · have hi : id.index ≠ a.index := fun hi => ha (by cases a; cases id; cases hi; rfl)
    rw [if_neg hi, if_neg ha]

namespace WatchersCounted

/-- A type that counts its observers is watched by a subscription just if that tracks it. -/
theorem mem_watchers_iff (hw : g.WatchersCounted) (hh : (g.node h).isAbstract ∨ ¬ g.Live h) :
    id ∈ (g.node h).watchers ↔ g.tracked? id = some h := by
  rw [← List.count_pos_iff, hw.count_eq id hh]
  split <;> simp [*]

/-- Whoever is counted tracks the type. -/
theorem tracked?_eq (hw : g.WatchersCounted) (hm : id ∈ (g.node h).watchers) :
    g.tracked? id = some h := by
  by_cases hh : (g.node h).isAbstract ∨ ¬ g.Live h
  · exact (hw.mem_watchers_iff hh).1 hm
  · rw [not_or, not_not, Bool.not_eq_true] at hh
    rw [hw.nil hh.2 hh.1] at hm
    cases hm

/-- A change that leaves watchers and subscriptions alone keeps the counts, if the types that count
their observers then are new or did so before. -/
theorem of_watchers (hw : g.WatchersCounted) (hsub : g'.subscriptions = g.subscriptions)
    (hwatch : ∀ k, (g'.node k).watchers = (g.node k).watchers) (hsize : g.size ≤ g'.size)
    (hcount : ∀ k, k.index < g.size → (g'.node k).isAbstract ∨ ¬ g'.Live k →
      (g.node k).isAbstract ∨ ¬ g.Live k)
    (hconcrete : ∀ k, g'.Live k → (g'.node k).isAbstract = false →
      (g.node k).watchers = []) : g'.WatchersCounted := by
  constructor
  · intro h id hh
    rw [hwatch, tracked?_congr hsub]
    by_cases hb : h.index < g.size
    · exact hw.count_eq id (hcount h hb hh)
    · -- nothing outside of the arena is watched or tracked
      rw [node_of_size_le (Nat.le_of_not_lt hb), if_neg fun ht => hb (hw.tracked_lt ht)]
      rfl
  · intro h hl ha
    rw [hwatch]
    exact hconcrete h hl ha
  · intro id h ht
    rw [tracked?_congr hsub] at ht
    exact Nat.lt_of_lt_of_le (hw.tracked_lt ht) hsize

theorem congr (hw : g.WatchersCounted) (hs : g'.size = g.size)
    (hsub : g'.subscriptions = g.subscriptions)
    (hwatch : ∀ k, (g'.node k).watchers = (g.node k).watchers)
    (habs : ∀ k, (g'.node k).isAbstract = (g.node k).isAbstract)
    (hfwd : ∀ k, (g'.node k).forward = (g.node k).forward) : g'.WatchersCounted := by
  refine hw.of_watchers hsub hwatch (Nat.le_of_eq hs.symm) (fun k _ hk => ?_) fun k hl ha => ?_
  · rwa [habs, live_congr (hfwd k)] at hk
  · rw [live_congr (hfwd k)] at hl
    rw [habs] at ha
    exact hw.nil hl ha

theorem rewire (hw : g.WatchersCounted) (owner old new : Handle) :
    (g.rewire owner old new).WatchersCounted :=
  hw.congr (size_rewire ..) (subscriptions_rewire ..) (fun _ => watchers_rewire ..)
    (fun _ => isAbstract_rewire ..) fun _ => forward_rewire ..

theorem begin (hw : g.WatchersCounted) (hr : g.Refinable old new) :
    (g.begin old new).WatchersCounted := by
  have hsub : (g.begin old new).subscriptions = g.subscriptions := subscriptions_retire ..
  refine hw.of_watchers hsub (fun k => watchers_retire ..) (Nat.le_of_eq (size_retire ..).symm)
    (fun k _ hk => ?_) fun k hl ha => ?_
  · rw [isAbstract_begin hr, live_begin hr] at hk
    by_cases hold : k = old
    · exact .inl (hold ▸ hr.isAbstract)
    · simpa [hold] using hk
  · obtain ⟨hold, hl⟩ := (live_begin hr k).1 hl
    rw [isAbstract_begin hr, if_neg hold] at ha
    exact hw.nil hl ha

theorem registerProvisional {key : Key} (hw : g.WatchersCounted)
    (hr : g.registerProvisional h key = .ok g') : g'.WatchersCounted := by
  obtain ⟨rfl, -, -⟩ := registerProvisional_eq_ok hr
  exact hw.congr rfl rfl (fun _ => rfl) (fun _ => rfl) fun _ => rfl

theorem concretizeAll (hw : g.WatchersCounted) {group : List Handle}
    (hl : ∀ h ∈ group, g.Live h) : (g.concretizeAll group).WatchersCounted := by
  have hlive := fun k => g.live_concretizeAll k group
  have hsub := g.subscriptions_concretizeAll group
  constructor
  · intro h id hh
    rw [hlive] at hh
    rw [tracked?_congr hsub]
    rw [node_concretizeAll] at hh ⊢
    split at hh
    · next hm => exact absurd (hl h hm) (hh.resolve_left (by simp))
    · next hm =>
      rw [if_neg hm]
      exact hw.count_eq id hh
  · intro h hl' ha
    rw [hlive] at hl'
    rw [node_concretizeAll] at ha ⊢
    split at ha
    · next hm => rw [if_pos hm]
    · next hm =>
      rw [if_neg hm]
      exact hw.nil hl' ha
  · intro id h ht
    rw [tracked?_congr hsub] at ht
    rw [size_concretizeAll]
    exact hw.tracked_lt ht

theorem promote (hw : g.WatchersCounted) (start : Handle) : (g.promote start).1.WatchersCounted :=
  hw.concretizeAll fun _ hm => live_of_mem_promotable hm

/-- One subscription leaves the type that it tracked, if any, and comes to track another, if any. -/
theorem retrack (hw : g.WatchersCounted) (id : ListenerId) (dest : Option Handle)
    (hs : g'.size = g.size)
    (hb : ∀ k, (g'.node k).bare = (g.node k).bare)
    (htrack : ∀ a, g'.tracked? a = if a = id then dest else g.tracked? a)
    (hdest : ∀ h, dest = some h → h.index < g.size ∧ g.Live h)
    (hcount : ∀ k a, (g'.node k).watchers.count a =
      (g.node k).watchers.count a - (if g.tracked? id = some k ∧ id = a then 1 else 0) +
        if dest = some k ∧ id = a ∧ (g.node k).isObservable then 1 else 0) :
    g'.WatchersCounted := by
  constructor
  · intro h a hh
    rw [Node.isAbstract_of_bare (hb h), live_of_bare (hb h)] at hh
    rw [hcount, htrack, hw.count_eq a hh]
    by_cases ha : a = id
    · subst ha
      have hobs : dest = some h → (g.node h).isObservable := by
        intro hd
        have hl := (hdest h hd).2
        unfold Node.isObservable
        rw [hh.resolve_right (not_not.2 hl), isRetired_eq_false_iff.2 hl]
        rfl
      by_cases hd : dest = some h
      · simp [hd, hobs hd]
      · simp [hd]
    · simp [ha, Ne.symm ha]
  · intro h hl ha
    rw [live_of_bare (hb h)] at hl
    rw [Node.isAbstract_of_bare (hb h)] at ha
    have hobs : (g.node h).isObservable = false := by
      unfold Node.isObservable
      rw [ha, Bool.false_and]
    refine eq_nil_of_count fun a => ?_
    rw [hcount, hw.nil hl ha, hobs]
    simp
  · intro a h ht
    rw [htrack] at ht
    rw [hs]
    split at ht
    · exact (hdest h ht).1
    · exact hw.tracked_lt ht

end WatchersCounted

/-! ## Listeners move, come and go -/

/-- A listener that watches a type is moved. -/
theorem moveListener_of_mem (ht : g.tracked? id = some old) :
    g.moveListener id old new =
      (((g.unwatch id old).track id (some new)).watch id new, [.refined id old new]) := by
  unfold moveListener
  simp only
  have hleft : (g.unwatch id old).tracked? id = some old := ht
  rw [hleft]

theorem tracked?_moveListener (ht : g.tracked? id = some old) (a : ListenerId) :
    (g.moveListener id old new).1.tracked? a = if a = id then some new else g.tracked? a := by
  rw [moveListener_of_mem ht]
  exact tracked?_track (g := g.unwatch id old) (lt_of_tracked? ht)

theorem count_watchers_moveListener (ht : g.tracked? id = some old) (k : Handle) (a : ListenerId) :
    ((g.moveListener id old new).1.node k).watchers.count a =
      (g.node k).watchers.count a - (if old = k ∧ id = a then 1 else 0) +
        if new = k ∧ id = a ∧ (g.node k).isObservable then 1 else 0 := by
  have hobs : ((g.unwatch id old).node k).isObservable = (g.node k).isObservable :=
    node_update_proj _ _ _ _ Node.isObservable fun _ => rfl
  rw [moveListener_of_mem ht, count_watchers_watch]
  show ((g.unwatch id old).node k).watchers.count a +
    (if new = k ∧ id = a ∧ ((g.unwatch id old).node k).isObservable then 1 else 0) = _
  rw [count_watchers_unwatch, hobs]

theorem WatchersCounted.move (hw : g.WatchersCounted) (hm : id ∈ (g.node old).watchers)
    (hlt : new.index < g.size) (hnew : g.Live new) :
    (g.moveListener id old new).1.WatchersCounted := by
  have ht := hw.tracked?_eq hm
  refine hw.retrack id (some new) (size_moveListener ..) (fun k => bare_moveListener g old new k id)
    (tracked?_moveListener ht) (fun h hd => ?_) fun k a => ?_
  · cases hd
    exact ⟨hlt, hnew⟩
  · rw [count_watchers_moveListener ht, ht]
    simp only [Option.some.injEq]

/-- A new subscription tracks the live type, and all others track what they did. -/
theorem tracked?_subscribe {ty : Handle} (hs : g.subscribe ty = some (id, g')) (a : ListenerId) :
    g'.tracked? a = if a = id then some (g.resolve ty) else g.tracked? a := by
  unfold Graph.subscribe at hs
  simp only at hs
  split at hs
  · cases hs
    show (g.subscriptions.push (some (g.resolve ty)))[a.index]?.join = _
    rw [Array.getElem?_push]
    by_cases ha : a = ⟨g.subscriptions.size⟩
    · rw [if_pos (congrArg ListenerId.index ha), if_pos ha]
      rfl
    · have hi : a.index ≠ g.subscriptions.size := fun hi => ha (by cases a; cases hi; rfl)
      rw [if_neg hi, if_neg ha]
      rfl
  · cases hs

theorem tracked?_unsubscribe (hu : g.unsubscribe id = some g') (a : ListenerId) :
    g'.tracked? a = if a = id then none else g.tracked? a := by
  unfold Graph.unsubscribe at hu
  obtain ⟨ty, ht, rfl⟩ := Option.map_eq_some_iff.1 hu
  exact tracked?_track (lt_of_tracked? ht)

theorem WatchersCounted.subscribe {ty : Handle} (hw : g.WatchersCounted) (hwf : g.WellFormed)
    (hs : g.subscribe ty = some (id, g')) : g'.WatchersCounted := by
  have htrack := tracked?_subscribe hs
  unfold Graph.subscribe at hs
  simp only at hs
  split at hs
  · next habs =>
    cases hs
    have hl := hwf.live_resolve ty
    have hnone : g.tracked? ⟨g.subscriptions.size⟩ = none := by
      cases ht : g.tracked? ⟨g.subscriptions.size⟩ with
      | none => rfl
      | some h => exact absurd (lt_of_tracked? ht) (Nat.lt_irrefl _)
    refine hw.retrack ⟨g.subscriptions.size⟩ (some (g.resolve ty)) (size_update _ _ _)
      (fun k => bare_watch _ _ k _) htrack (fun h hd => ?_) fun k a => ?_
    · cases hd
      refine ⟨WellFormed.lt_of_isAbstract ?_, hl⟩
      unfold isAbstract live at habs
      rwa [hl.resolve_eq] at habs
    · rw [count_watchers_watch, hnone]
      simp only [reduceCtorEq, false_and, ↓reduceIte, Nat.sub_zero, Option.some.injEq]
      rfl
  · cases hs

theorem WatchersCounted.unsubscribe (hw : g.WatchersCounted) (hu : g.unsubscribe id = some g') :
    g'.WatchersCounted := by
  have htrack := tracked?_unsubscribe hu
  unfold Graph.unsubscribe at hu
  obtain ⟨ty, ht, rfl⟩ := Option.map_eq_some_iff.1 hu
  refine hw.retrack id none (size_update _ _ _) (fun k => bare_unwatch _ _ k _) htrack
    (fun h hd => by cases hd) fun k a => ?_
  rw [count_watchers_unwatch, ht]
  simp only [reduceCtorEq, false_and, ↓reduceIte, Nat.add_zero, Option.some.injEq]
  rfl

/-! ## New types -/

theorem WatchersCounted.extend (hw : g.WatchersCounted) (hs : g.size ≤ g'.size)
    (hsub : g'.subscriptions = g.subscriptions)
    (hwatch : ∀ k, (g'.node k).watchers = (g.node k).watchers)
    (hb : ∀ k, k ≠ g.next → (g'.node k).bare = (g.node k).bare) : g'.WatchersCounted := by
  refine hw.of_watchers hsub hwatch hs (fun k hk hh => ?_) fun k hl ha => ?_
  · have hne := ne_next_of_lt hk
    rwa [Node.isAbstract_of_bare (hb k hne), live_of_bare (hb k hne)] at hh
  · by_cases hk : k = g.next
    · rw [hk, node_next]
      rfl
    · rw [live_of_bare (hb k hk)] at hl
      rw [Node.isAbstract_of_bare (hb k hk)] at ha
      exact hw.nil hl ha

theorem watchers_push {n : Node} (hn : n.watchers = []) (k : Handle) :
    ((g.push n).node k).watchers = (g.node k).watchers := by
  rw [node_push]
  split
  · next hk =>
    rw [hk, node_next]
    exact hn
  · rfl

theorem subscriptions_grow (key : Key) : (g.grow key).subscriptions = g.subscriptions := by
  unfold grow
  exact foldl_proj (f := fun g' p => g'.acquire g.next p) (p := subscriptions) (fun _ _ => rfl) _ _

theorem WatchersCounted.intern {key : Key} (hw : g.WatchersCounted) (hk : g.Internable key) :
    (g.intern key).2.WatchersCounted := by
  cases hl : g.registry.lookup key with
  | some h =>
    rw [intern_of_lookup_some hl]
    exact hw
  | none =>
    rw [intern_of_lookup_none hk hl]
    have hwatch : ∀ k, ((g.grow key).node k).watchers = (g.node k).watchers := by
      intro k
      unfold grow
      rw [node_foldl_proj (f := fun g' p => g'.acquire g.next p) (p := Node.watchers)
        fun _ _ => watchers_acquire _ _ _ _]
      exact watchers_push rfl k
    refine hw.extend ?_ (subscriptions_grow key) hwatch fun k => bare_grow_of_ne
    show g.size ≤ (g.grow key).size
    rw [size_grow]
    omega

theorem WatchersCounted.placeholder (hw : g.WatchersCounted) :
    g.placeholder.2.WatchersCounted := by
  rw [placeholder_eq]
  refine hw.extend ?_ rfl (fun k => watchers_push rfl k) fun k hk => ?_
  · rw [size_push]
    omega
  · rw [node_push, if_neg hk]

/-- The scalars are not watched, and there are no subscriptions yet. -/
theorem watchersCounted_scalars : scalars.WatchersCounted := by
  have htrack : ∀ id, scalars.tracked? id = none := fun id => by
    unfold tracked? scalars
    simp
  constructor
  · intro h id _
    obtain ⟨p, hp⟩ := node_scalars h
    rw [hp, htrack]
    rfl
  · intro h _ _
    obtain ⟨p, hp⟩ := node_scalars h
    rw [hp]
    rfl
  · intro id h ht
    rw [htrack] at ht
    cases ht

end TypeGraph.Graph
