import TypeGraph.Proofs.Histories

/-!
# Abstractness is exact

A type stays abstract only with a reason: it is a placeholder, or holds a retired type whose owners
are still to be told, or is itself about to hear that a component became concrete, or holds an
abstract type with such a reason. Each advance keeps that. Once the agenda is empty only
placeholders are left as reasons.
-/

namespace TypeGraph.Graph

/-- There is a reason for a type to be abstract. The handles in `due` are still to be promoted if
they can be. -/
inductive Delayed (g : Graph) (due : Handle → Prop) : Handle → Prop where
  | placeholder {u : Handle} (hp : (g.node u).isPlaceholder) : Delayed g due u
  | stale {u s : Handle} (hs : s ∈ (g.node u).slots) (hl : ¬ g.Live s) : Delayed g due u
  | due {u : Handle} (hu : due u) : Delayed g due u
  | step {u s : Handle} (hs : s ∈ (g.node u).slots) (ha : (g.node s).isAbstract)
      (hd : Delayed g due s) : Delayed g due u

/-- There is a reason for every abstract type. -/
def AllDelayed (g : Graph) (due : Handle → Prop) : Prop :=
  ∀ u, (g.node u).isAbstract → g.Delayed due u

/-- The type is about to hear that a component became concrete. -/
def Due (agenda : List Task) (u : Handle) : Prop :=
  ∃ ty pending, .announce ty pending ∈ agenda ∧ .owner u ∈ pending

variable {g g' : Graph} {h u old new owner start : Handle} {agenda agenda' rest : List Task}
  {events : List Event} {due due' : Handle → Prop}

/-! ## Changes that keep the reasons -/

/-- A change keeps a reason if it keeps each single step to it, or gives another reason. -/
theorem Delayed.transfer
    (hplaceholder : ∀ u, (g.node u).isPlaceholder → (g'.node u).isPlaceholder)
    (hdue : ∀ u, (g'.node u).isAbstract → due u → g'.Delayed due' u)
    (hstale : ∀ u s, (g'.node u).isAbstract → s ∈ (g.node u).slots → ¬ g.Live s →
      g'.Delayed due' u)
    (hstep : ∀ u s, (g'.node u).isAbstract → s ∈ (g.node u).slots → (g.node s).isAbstract →
      g'.Delayed due' u ∨ s ∈ (g'.node u).slots ∧ (g'.node s).isAbstract)
    (hd : g.Delayed due u) (ha : (g'.node u).isAbstract) : g'.Delayed due' u := by
  induction hd with
  | placeholder hp => exact .placeholder (hplaceholder _ hp)
  | stale hs hl => exact hstale _ _ ha hs hl
  | due hu => exact hdue _ ha hu
  | step hs has _ ih =>
    rcases hstep _ _ ha hs has with hd | ⟨hs', ha'⟩
    · exact hd
    · exact .step hs' ha' (ih ha')

theorem isPlaceholder_of_shape (hs : (g'.node u).shape = (g.node u).shape)
    (hp : (g.node u).isPlaceholder) : (g'.node u).isPlaceholder := by
  rwa [Node.isPlaceholder, Node.kind, hs]

theorem AllDelayed.mono (hall : g.AllDelayed due)
    (hdue : ∀ u, (g.node u).isAbstract → due u → due' u) : g.AllDelayed due' := fun u ha =>
  (hall u ha).transfer (fun _ hp => hp) (fun u ha hu => .due (hdue u ha hu))
    (fun _ _ _ hs hl => .stale hs hl) (fun _ _ _ hs ha => .inr ⟨hs, ha⟩) ha

theorem AllDelayed.of_bare (hall : g.AllDelayed due)
    (hb : ∀ k, (g'.node k).bare = (g.node k).bare) : g'.AllDelayed due := by
  intro u ha
  have ha' : (g.node u).isAbstract := by rwa [← Node.isAbstract_of_bare (hb u)]
  refine (hall u ha').transfer (fun k => isPlaceholder_of_shape (Node.shape_of_bare (hb k)))
    (fun u _ hu => .due hu) (fun u s _ hs hl => ?_) (fun u s _ hs hs' => .inr ?_) ha
  · refine .stale (s := s) (by rwa [Node.slots_of_bare (hb u)]) ?_
    rwa [live_of_bare (hb s)]
  · rw [Node.slots_of_bare (hb u), Node.isAbstract_of_bare (hb s)]
    exact ⟨hs, hs'⟩

/-- Who holds a type that is retired waits to be told. -/
theorem AllDelayed.begin (hall : g.AllDelayed due) (hr : g.Refinable old new) :
    (g.begin old new).AllDelayed due := by
  have hkeep : ∀ {u}, ((g.begin old new).node u).isAbstract → u ≠ old ∧ (g.node u).isAbstract := by
    intro u ha
    rw [isAbstract_begin hr] at ha
    split at ha
    · cases ha
    · next hu => exact ⟨hu, ha⟩
  have hmem : ∀ {u s}, ((g.begin old new).node u).isAbstract → s ∈ (g.node u).slots →
      s ∈ ((g.begin old new).node u).slots := by
    intro u s ha hs
    rwa [slots_begin hr, if_neg (hkeep ha).1]
  intro u ha
  refine (hall u (hkeep ha).2).transfer (fun k => isPlaceholder_of_shape (shape_begin hr k))
    (fun _ _ hu => .due hu) (fun u s ha hs hl => .stale (hmem ha hs) ?_)
    (fun u s ha hs hs' => ?_) ha
  · exact fun h => hl ((live_begin hr s).1 h).2
  · by_cases hold : s = old
    · exact .inl (.stale (hmem ha hs) fun h => ((live_begin hr s).1 h).1 hold)
    · exact .inr ⟨hmem ha hs, by rwa [isAbstract_begin hr, if_neg hold]⟩

/-- An owner whose slots move is to be promoted if it can be. -/
theorem AllDelayed.rewire (hall : g.AllDelayed due) (owner old new : Handle) :
    (g.rewire owner old new).AllDelayed fun u => due u ∨ u = owner := by
  have hslots : ∀ {k}, k ≠ owner → ((g.rewire owner old new).node k).slots = (g.node k).slots :=
    fun hk => (slots_rewire ..).trans (if_neg hk)
  intro u ha
  rw [isAbstract_rewire] at ha
  refine (hall u ha).transfer (fun k => isPlaceholder_of_shape (shape_rewire ..))
    (fun u _ hu => .due (.inl hu)) (fun u s _ hs hl => ?_) (fun u s _ hs hs' => ?_)
    (by rwa [isAbstract_rewire])
  · by_cases hu : u = owner
    · exact .due (.inr hu)
    · exact .stale (s := s) (by rwa [hslots hu]) (by rwa [live_rewire])
  · by_cases hu : u = owner
    · exact .inl (.due (.inr hu))
    · exact .inr ⟨by rwa [hslots hu], by rwa [isAbstract_rewire]⟩

/-! ## Promotion -/

/-- A type that reaches through abstract types one with a reason, or a retired one, has a reason. -/
theorem delayed_of_reached {v : Handle} (hr : Reached g.size g.abstractSlots [start] v)
    (hstart : g.Live start) (hv : g.Live v → (g.node v).isAbstract ∧ g.Delayed due v) :
    g.Delayed due start := by
  induction hr with
  | start hs =>
    obtain rfl := List.mem_singleton.1 hs
    exact (hv hstart).2
  | @step a b _ hn _ ih =>
    obtain ⟨ha, hs⟩ := mem_abstractSlots.1 hn
    refine ih fun _ => ⟨ha, ?_⟩
    by_cases hl : g.Live b
    · exact .step hs (hv hl).1 (hv hl).2
    · exact .stale hs hl

/-- A promotion gives all types that it promotes, and there is a reason for its start if it does not
promote that. -/
theorem AllDelayed.promote (hwf : g.WellFormed) (hoc : g.OwnersCounted)
    (hall : g.AllDelayed fun u => due u ∨ u = start)
    (hdue : ∀ u, due u → due' u) (htasks : ∀ u, Due (g.promote start).2 u → due' u) :
    (g.promote start).1.AllDelayed due' := by
  have hkeep : ∀ {u}, ((g.promote start).1.node u).isAbstract →
      u ∉ g.promotable start ∧ (g.node u).isAbstract := by
    intro u ha
    rw [isAbstract_promote] at ha
    split at ha
    · cases ha
    · next hu => exact ⟨hu, ha⟩
  intro u ha
  refine (hall u (hkeep ha).2).transfer (fun k => isPlaceholder_of_shape (shape_promote ..))
    (fun u ha hu => ?_) (fun u s ha hs hl => ?_) (fun u s ha hs hs' => ?_) ha
  · rcases hu with hu | rfl
    · exact .due (hdue u hu)
    · -- the start was not promoted, so nothing was
      obtain ⟨hn, ha⟩ := hkeep ha
      obtain ⟨b, hb, hblock⟩ := exists_blocks_of_not_mem_promotable ha hn
      have hnone : g.promotable u = [] := by
        refine List.eq_nil_iff_forall_not_mem.2 fun h hh => ?_
        rw [(mem_promotable.1 hh).1 b (mem_abstractReach.2 hb)] at hblock
        cases hblock
      have hsame : (g.promote u).1 = g := by
        unfold Graph.promote
        rw [hnone]
        rfl
      rw [hsame]
      refine delayed_of_reached hb (hwf.live_of_isAbstract ha) fun hl => ?_
      have hp : (g.node b).isPlaceholder := by
        unfold blocks at hblock
        rwa [isRetired_eq_false_iff.2 hl, Bool.or_false] at hblock
      exact ⟨hwf.isAbstract_of_placeholder hl hp, .placeholder hp⟩
  · exact .stale (s := s) (by rwa [slots_promote]) (by rwa [live_promote])
  · by_cases hm : s ∈ g.promotable start
    · -- the owners of a promoted type hear of it
      exact .inl (.due (htasks u ⟨s, g.observers s, List.mem_map_of_mem hm,
        Node.owner_mem_observers.2 ((hoc.mem_owners_iff (.inl hs')).2 hs)⟩))
    · exact .inr ⟨by rwa [slots_promote], by rwa [isAbstract_promote, if_neg hm]⟩

/-! ## Advances -/

theorem due_append : Due (agenda ++ agenda') u ↔ Due agenda u ∨ Due agenda' u := by
  unfold Due
  simp only [List.mem_append, or_and_right, exists_or]

theorem due_settle {pending : List Observer} :
    Due (.settle old new pending :: rest) u ↔ Due rest u := by
  unfold Due
  simp

theorem due_announce {ty : Handle} {pending : List Observer} :
    Due (.announce ty pending :: rest) u ↔ .owner u ∈ pending ∨ Due rest u := by
  unfold Due
  simp only [List.mem_cons, Task.announce.injEq, or_and_right, exists_or]
  simp

/-- Each advance keeps a reason for every abstract type. -/
theorem Advance.allDelayed (ha : Advance g agenda events g' agenda') (hc : g.Consistent agenda)
    (hall : g.AllDelayed (Due agenda)) : g'.AllDelayed (Due agenda') := by
  cases ha with
  | settled => exact hall.mono fun _ _ hu => due_settle.1 hu
  | pass => exact hall.mono fun _ _ hu => due_settle.2 (due_settle.1 hu)
  | move =>
    exact (hall.mono fun _ _ hu => due_settle.2 (due_settle.1 hu)).of_bare fun k =>
      bare_moveListener _ _ _ k _
  | @collapse _ old new owner _ _ _ _ ho hg hk he hr =>
    subst hg
    refine ((hall.rewire owner old (g.resolve new)).begin hr).mono fun u ha hu => ?_
    rcases hu with hu | rfl
    · exact due_settle.2 (due_settle.2 (due_settle.1 hu))
    · -- the owner is retired, and so not abstract
      rw [isAbstract_begin hr, if_pos rfl] at ha
      cases ha
  | @keep _ g₂ old new owner _ _ _ ho hg hk he hr =>
    subst hg
    have hp := hc.toPoised.rewire ho
    have hp₂ : g₂.Poised _ := hp.registerProvisional (hc.toPoised.isAbstract_told ho) hk hr
    obtain ⟨rfl, -, -⟩ := registerProvisional_eq_ok hr
    refine AllDelayed.promote hp₂.wellFormed hp₂.owners
      ((hall.rewire owner old (g.resolve new)).of_bare fun _ => rfl) (fun u hu => ?_)
      fun u hu => due_append.2 (.inl hu)
    exact due_append.2 (.inr (due_settle.2 (due_settle.1 hu)))
  | announced =>
    refine hall.mono fun _ _ hu => ?_
    rcases due_announce.1 hu with hu | hu
    · cases hu
    · exact hu
  | @promote ty owner pending rest ho =>
    have hnext : g.AllDelayed fun u => Due (.announce ty pending :: rest) u ∨ u = owner := by
      refine hall.mono fun u _ hu => ?_
      rcases due_announce.1 hu with hu | hu
      · rcases List.mem_cons.1 hu with heq | hu
        · cases heq
          exact .inr rfl
        · exact .inl (due_announce.2 (.inl hu))
      · exact .inl (due_announce.2 (.inr hu))
    exact hnext.promote hc.wellFormed hc.owners (fun u hu => due_append.2 (.inr hu))
      fun u hu => due_append.2 (.inl hu)
  | hear =>
    refine hall.mono fun _ _ hu => ?_
    rcases due_announce.1 hu with hu | hu
    · rcases List.mem_cons.1 hu with heq | hu
      · cases heq
      · exact due_announce.2 (.inl hu)
    · exact due_announce.2 (.inr hu)

/-! ## New types -/

/-- A new type needs a reason of its own, and keeps those of all others. -/
theorem AllDelayed.extend (hwf : g.WellFormed) (hall : g.AllDelayed due)
    (hb : ∀ k, k ≠ g.next → (g'.node k).bare = (g.node k).bare)
    (hnew : (∀ u, u ≠ g.next → (g'.node u).isAbstract → g'.Delayed due u) →
      (g'.node g.next).isAbstract → g'.Delayed due g.next) : g'.AllDelayed due := by
  have hne : ∀ {u s}, s ∈ (g.node u).slots → u ≠ g.next ∧ s ≠ g.next := by
    refine fun {u s} hs => ⟨?_, ne_next_of_lt (hwf.slots_lt hs)⟩
    rintro rfl
    rw [node_next] at hs
    cases hs
  have hold : ∀ u, u ≠ g.next → (g'.node u).isAbstract → g'.Delayed due u := by
    intro u hu ha
    rw [Node.isAbstract_of_bare (hb u hu)] at ha
    refine (hall u ha).transfer (fun k hp => ?_) (fun u _ hu => .due hu)
      (fun u s _ hs hl => ?_) (fun u s _ hs hs' => .inr ?_)
      (by rwa [Node.isAbstract_of_bare (hb u hu)])
    · have hk : k ≠ g.next := by
        rintro rfl
        rw [node_next] at hp
        cases hp
      exact isPlaceholder_of_shape (Node.shape_of_bare (hb k hk)) hp
    · refine .stale (s := s) (by rwa [Node.slots_of_bare (hb u (hne hs).1)]) ?_
      rwa [live_of_bare (hb s (hne hs).2)]
    · rw [Node.slots_of_bare (hb u (hne hs).1), Node.isAbstract_of_bare (hb s (hne hs).2)]
      exact ⟨hs, hs'⟩
  intro u ha
  by_cases hu : u = g.next
  · subst hu
    exact hnew hold ha
  · exact hold u hu ha

/-- A type of a new key is abstract because one of its components is. -/
theorem AllDelayed.intern {key : Key} (hwf : g.WellFormed) (hk : g.Internable key)
    (hall : g.AllDelayed due) : (g.intern key).2.AllDelayed due := by
  cases hl : g.registry.lookup key with
  | some h =>
    rw [intern_of_lookup_some hl]
    exact hall
  | none =>
    rw [intern_of_lookup_none hk hl]
    refine hall.extend hwf (fun k => bare_grow_of_ne) fun hold ha => ?_
    change ((g.grow key).node g.next).isAbstract = true at ha
    rw [isAbstract_grow, if_pos rfl] at ha
    obtain ⟨p, hp, hap⟩ := List.any_eq_true.1 ha
    have hne : p ≠ g.next := ne_next_of_lt (hk.parts p hp).1
    have hap' : ((g.grow key).node p).isAbstract := by rwa [isAbstract_grow, if_neg hne]
    refine .step (s := p) ?_ hap' (hold p hne hap')
    show p ∈ ((g.grow key).node g.next).slots
    rwa [slots_grow, if_pos rfl]

theorem AllDelayed.placeholder (hwf : g.WellFormed) (hall : g.AllDelayed due) :
    g.placeholder.2.AllDelayed due := by
  rw [placeholder_eq]
  refine hall.extend hwf (fun k hne => ?_) fun _ _ => .placeholder ?_
  · rw [node_push, if_neg hne]
  · rw [node_push, if_pos rfl]
    rfl

theorem allDelayed_scalars : scalars.AllDelayed due := by
  intro u ha
  obtain ⟨p, hp⟩ := node_scalars u
  rw [hp] at ha
  cases ha

/-- Each change keeps a reason for every abstract type. -/
theorem Changes.allDelayed (hx : Changes g g') (hc : g.Consistent [])
    (hall : g.AllDelayed (Due [])) : g'.AllDelayed (Due []) := by
  cases hx with
  | intern hk => exact hall.intern hc.wellFormed hk
  | placeholder => exact hall.placeholder hc.wellFormed
  | refine hlt hr =>
    exact (hc.refine_induction (P := fun g agenda => g.AllDelayed (Due agenda)) hlt hr
      (fun href => (hall.begin href).mono fun _ _ hu => due_settle.2 hu)
      fun hc hall ha => ha.allDelayed hc hall).2
  | listeners hs hr hb ho => exact hall.of_bare hb

/-- Between operations each abstract type holds its way to a placeholder. -/
theorem Reachable.allDelayed (hg : Reachable g) : g.AllDelayed fun _ => False := by
  have hall : g.AllDelayed (Due []) :=
    hg.change_induction allDelayed_scalars fun hc hall hx => hx.allDelayed hc hall
  refine hall.mono fun _ _ hu => ?_
  obtain ⟨_, _, hm, _⟩ := hu
  cases hm

/-! ## Exactness -/

/-- With nothing left to tell, the reason of an abstract type is a placeholder that it reaches. -/
theorem Consistent.exists_placeholder (hc : g.Consistent []) (hd : g.Delayed (Due []) u)
    (ha : (g.node u).isAbstract) :
    ∃ p, g.Live p ∧ (g.node p).isPlaceholder ∧ g.Reaches u p := by
  induction hd with
  | placeholder hp => exact ⟨_, hc.wellFormed.live_of_isAbstract ha, hp, .refl _⟩
  | stale hs hl => exact absurd (hc.live_of_mem_slots hs) hl
  | due hu =>
    obtain ⟨_, _, hm, _⟩ := hu
    cases hm
  | @step u s hs has _ ih =>
    obtain ⟨p, hl, hp, hr⟩ := ih has
    refine ⟨p, hl, hp, .step ?_ hr⟩
    rw [← (hc.live_of_mem_slots hs).resolve_eq]
    exact List.mem_map_of_mem hs

/-- What a concrete type reaches is concrete. -/
theorem WellFormed.concrete_of_reaches (hwf : g.WellFormed) (hr : g.Reaches u h)
    (ha : (g.node u).isAbstract = false) : (g.node h).isAbstract = false := by
  induction hr with
  | refl => exact ha
  | step hb _ ih =>
    obtain ⟨s, hs, rfl⟩ := List.mem_map.1 hb
    rw [(hwf.live_of_concrete ha hs).resolve_eq] at ih
    exact ih (hwf.concrete_of_concrete ha hs)

/-- **Exactness.** In a reachable graph a type is flagged abstract exactly when it is a live
placeholder or reaches one through its slots. -/
theorem Reachable.isAbstract_flags_iff (hg : Reachable g) (t : Handle) :
    (g.flags t).isAbstract ↔
      ∃ p, g.Live p ∧ g.kind p = .placeholder ∧ g.Reaches (g.resolve t) p := by
  have hc := hg.consistent
  have hkind : ∀ {p}, g.Live p → ((g.node p).isPlaceholder ↔ g.kind p = .placeholder) := by
    intro p hl
    unfold kind live Node.isPlaceholder
    rw [hl.resolve_eq, decide_eq_true_eq]
  unfold flags live
  rw [Node.isAbstract_flags]
  constructor
  · intro ha
    have hall : g.AllDelayed (Due []) :=
      hg.change_induction allDelayed_scalars fun hc hall hx => hx.allDelayed hc hall
    obtain ⟨p, hl, hp, hr⟩ := hc.exists_placeholder (hall _ ha) ha
    exact ⟨p, hl, (hkind hl).1 hp, hr⟩
  · rintro ⟨p, hl, hp, hr⟩
    by_contra ha
    have hconcrete := hc.wellFormed.concrete_of_reaches hr (Bool.eq_false_iff.2 ha)
    rw [hc.wellFormed.isAbstract_of_placeholder hl ((hkind hl).2 hp)] at hconcrete
    cases hconcrete

set_option maxRecDepth 10000 in
/-- A recursive type with an open field is abstract, since it reaches the placeholder there. -/
theorem isAbstract_flags_iff_open : ∃ g, initial.play
    [.placeholder, .pointer ⟨9⟩, .placeholder, .struct [⟨10⟩, ⟨11⟩] false, .refine ⟨9⟩ ⟨12⟩] =
      some g ∧
    ∃ p, g.Live p ∧ g.kind p = .placeholder ∧ g.Reaches (g.resolve ⟨10⟩) p := by
  have h : ((initial.play
      [.placeholder, .pointer ⟨9⟩, .placeholder, .struct [⟨10⟩, ⟨11⟩] false,
        .refine ⟨9⟩ ⟨12⟩]).map fun g => (g.flags ⟨10⟩).isAbstract) = some true := by cbv
  obtain ⟨g, hg, ha⟩ := Option.map_eq_some_iff.1 h
  exact ⟨g, hg, ((Reachable.initial.play hg).isAbstract_flags_iff ⟨10⟩).1 ha⟩

end TypeGraph.Graph
