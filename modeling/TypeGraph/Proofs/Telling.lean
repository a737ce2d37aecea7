import TypeGraph.Delivery
import TypeGraph.Proofs.Frame
import TypeGraph.Proofs.Termination

/-!
# What a refinement tells a listener

A listener hears of each replacement of its type, one after the other, and then once that the type
is concrete: either because its type became so, or because the last replacement was so already.
Nothing comes after that.

At each moment of a refinement a listener is at one of three stages. It waits, since its type is
abstract or was replaced; its type is concrete and it is due to hear so; or it has heard
(`Stage`). `Telling` ties the stage to the graph, the tasks left and what was delivered so far.

1. Each advance keeps it (`Advance.telling`): a type that is replaced takes its listeners along, one
   that becomes concrete has its listeners told, and nobody else is.
2. So each refinement does (`Reachable.telling_refine`).
3. A listener that tracks nothing hears nothing (`Reachable.cancelled_refine`).
-/

namespace TypeGraph

/-- The events lead from one type to another. Each replacement replaces the type that the one before
led to, and the news that the type became concrete comes last. -/
inductive Follows (id : ListenerId) : Handle → List Event → Handle → Prop where
  | silent (t : Handle) : Follows id t [] t
  | concrete (t : Handle) : Follows id t [.concrete id t] t
  | refined {s t u : Handle} {events : List Event} (h : Follows id t events u) :
      Follows id s (.refined id s t :: events) u

/-- The node is live and not abstract. -/
def Node.isConcrete (n : Node) : Bool := !n.isAbstract && !n.isRetired

/-- How far the telling of a listener is, by whether its type is concrete, what was delivered, and
the announcements left to it. -/
inductive Stage (target : Handle) : Bool → List Delivery → List Handle → Prop where
  | waiting {told : List Delivery} (hopen : ∀ d ∈ told, d.isFinal = false) :
      Stage target false told []
  | due {told : List Delivery} (hopen : ∀ d ∈ told, d.isFinal = false) :
      Stage target true told [target]
  | done {told : List Delivery} {d : Delivery} (hopen : ∀ d ∈ told, d.isFinal = false)
      (hd : d.isFinal) : Stage target true (told ++ [d]) []

/-- The types that a task is going to announce to the listener. -/
def Task.news (id : ListenerId) : Task → List Handle
  | announce ty pending => List.replicate (pending.count (.listener id)) ty
  | refine _ _ | settle _ _ _ | abort _ => []

/-- The types that an agenda is going to announce to the listener. -/
def newsFor (id : ListenerId) (agenda : List Task) : List Handle := agenda.flatMap (Task.news id)

variable {id : ListenerId} {s t u : Handle} {events : List Event} {told : List Delivery}
  {news : List Handle} {agenda agenda' rest : List Task} {pending : List Observer}

theorem Follows.refine (h : Follows id s events t) (hopen : ∀ ty, .concrete id ty ∉ events) :
    Follows id s (events ++ [.refined id t u]) u := by
  induction h with
  | silent t => exact .refined (.silent u)
  | concrete t => exact absurd List.mem_cons_self (hopen t)
  | refined _ ih => exact .refined (ih fun ty hm => hopen ty (List.mem_cons_of_mem _ hm))

theorem Follows.finish (h : Follows id s events t) (hopen : ∀ ty, .concrete id ty ∉ events) :
    Follows id s (events ++ [.concrete id t]) t := by
  induction h with
  | silent t => exact .concrete t
  | concrete t => exact absurd List.mem_cons_self (hopen t)
  | refined _ ih => exact .refined (ih fun ty hm => hopen ty (List.mem_cons_of_mem _ hm))

theorem Stage.of_not_concrete (h : Stage t false told news) :
    (∀ d ∈ told, d.isFinal = false) ∧ news = [] := by
  cases h with
  | waiting hopen => exact ⟨hopen, rfl⟩

theorem Stage.of_cons {c : Bool} (h : Stage t c told (u :: news)) :
    (∀ d ∈ told, d.isFinal = false) ∧ c = true ∧ u = t ∧ news = [] := by
  cases h with
  | due hopen => exact ⟨hopen, rfl, rfl, rfl⟩

/-- Nothing comes after a final delivery. -/
theorem Stage.pairwise {c : Bool} (h : Stage t c told news) :
    told.Pairwise fun d _ => d.isFinal = false := by
  cases h with
  | waiting hopen | due hopen => exact List.pairwise_of_forall_mem_list fun d hd _ _ => hopen d hd
  | done hopen =>
    refine List.pairwise_append.2 ⟨List.pairwise_of_forall_mem_list fun d hd _ _ => hopen d hd,
      List.pairwise_singleton _ _, fun d hd _ _ => hopen d hd⟩

/-- Once no announcement is left there was one final delivery just if the type is concrete. -/
theorem Stage.countP_isFinal {c : Bool} (h : Stage t c told []) :
    told.countP Delivery.isFinal = if c then 1 else 0 := by
  have hnone : ∀ {l : List Delivery}, (∀ d ∈ l, d.isFinal = false) →
      l.countP Delivery.isFinal = 0 := fun hopen =>
    List.countP_eq_zero.2 fun d hd => by simp [hopen d hd]
  cases h with
  | waiting hopen => exact hnone hopen
  | done hopen hd => simp [hnone hopen, hd]

theorem newsFor_append (id : ListenerId) (l l' : List Task) :
    newsFor id (l ++ l') = newsFor id l ++ newsFor id l' := List.flatMap_append

theorem newsFor_cons (id : ListenerId) (t : Task) (l : List Task) :
    newsFor id (t :: l) = t.news id ++ newsFor id l := rfl

/-- The owner of a slot is no listener. -/
theorem newsFor_announce_owner (id : ListenerId) (ty owner : Handle) (pending : List Observer)
    (rest : List Task) : newsFor id (.announce ty (.owner owner :: pending) :: rest) =
      newsFor id (.announce ty pending :: rest) := by
  rw [newsFor_cons, newsFor_cons, Task.news, Task.news,
    List.count_cons_of_ne (by simp : Observer.owner owner ≠ .listener id)]

theorem newsFor_announce_of_ne {a : ListenerId} (ha : a ≠ id) (ty : Handle)
    (pending : List Observer) (rest : List Task) :
    newsFor id (.announce ty (.listener a :: pending) :: rest) =
      newsFor id (.announce ty pending :: rest) := by
  rw [newsFor_cons, newsFor_cons, Task.news, Task.news,
    List.count_cons_of_ne (by simpa using ha : Observer.listener a ≠ .listener id)]

theorem newsFor_announce_self (id : ListenerId) (ty : Handle) (pending : List Observer)
    (rest : List Task) : newsFor id (.announce ty (.listener id :: pending) :: rest) =
      ty :: newsFor id (.announce ty pending :: rest) := by
  rw [newsFor_cons, newsFor_cons, Task.news, Task.news, List.count_cons_self, List.replicate_succ]
  rfl

theorem toListener_append (id : ListenerId) (l l' : List Delivery) :
    toListener id (l ++ l') = toListener id l ++ toListener id l' := List.filter_append ..

namespace Graph

variable {g g' : Graph} {h k old new owner start target : Handle}

theorem isConcrete_congr (ha : (g'.node k).isAbstract = (g.node k).isAbstract)
    (hf : (g'.node k).forward = (g.node k).forward) :
    (g'.node k).isConcrete = (g.node k).isConcrete := by
  unfold Node.isConcrete Node.isRetired
  rw [ha, hf]

theorem isConcrete_of_bare (hb : (g'.node k).bare = (g.node k).bare) :
    (g'.node k).isConcrete = (g.node k).isConcrete :=
  isConcrete_congr (Node.isAbstract_of_bare hb) (Node.forward_of_bare hb)

theorem isConcrete_of_isAbstract (ha : (g.node k).isAbstract) : (g.node k).isConcrete = false := by
  unfold Node.isConcrete
  rw [ha]
  rfl

theorem isConcrete_of_not_live (hk : ¬ g.Live k) : (g.node k).isConcrete = false := by
  unfold Node.isConcrete
  rw [eq_true_of_ne_false (mt isRetired_eq_false_iff.1 hk)]
  exact Bool.and_false _

theorem isConcrete_of_live (hk : g.Live k) : (g.node k).isConcrete = !(g.node k).isAbstract := by
  unfold Node.isConcrete
  rw [isRetired_eq_false_iff.2 hk]
  exact Bool.and_true _

/-! ## What promotion announces -/

theorem nodup_observers (n : Node) : n.observers.Nodup := by
  unfold Node.observers
  have hsorted : ∀ {α : Type} [DecidableEq α] (le : α → α → Bool) (l : List α),
      (l.eraseDups.mergeSort le).Nodup := fun le l =>
    (List.mergeSort_perm _ le).nodup_iff.2 (nodup_eraseDups l)
  refine List.nodup_append.2 ⟨?_, ?_, ?_⟩
  · exact (hsorted _ _).map fun _ _ h => by simpa using h
  · exact (hsorted _ _).map fun _ _ h => by simpa using h
  · rintro o ho _ ho' rfl
    obtain ⟨_, -, rfl⟩ := List.mem_map.1 ho
    obtain ⟨_, -, heq⟩ := List.mem_map.1 ho'
    cases heq

/-- An abstract type has the listener told of it just if the listener tracks it. -/
theorem WatchersCounted.news_announce (hw : g.WatchersCounted) (ha : (g.node h).isAbstract)
    (ht : g.tracked? id = some target) :
    Task.news id (.announce h (g.observers h)) = if h = target then [target] else [] := by
  have hmem : Observer.listener id ∈ g.observers h ↔ h = target := by
    unfold observers
    rw [Node.mem_observers, Node.isObservedBy_listener, hw.mem_watchers_iff (.inl ha), ht]
    exact ⟨fun heq => (Option.some.inj heq).symm, fun heq => congrArg some heq.symm⟩
  have hcount : (g.observers h).count (.listener id) =
      if .listener id ∈ g.observers h then 1 else 0 :=
    (nodup_observers (g.node h)).count
  rw [Task.news, hcount]
  by_cases heq : h = target
  · rw [if_pos heq, if_pos (hmem.2 heq), heq]
    rfl
  · rw [if_neg heq, if_neg (mt hmem.1 heq)]
    rfl

theorem flatMap_ite_eq {group : List Handle} (hn : group.Nodup) (t : Handle) :
    (group.flatMap fun h => if h = t then [t] else []) = if t ∈ group then [t] else [] := by
  induction group with
  | nil => rfl
  | cons h group ih =>
    obtain ⟨hh, hn⟩ := List.nodup_cons.1 hn
    rw [List.flatMap_cons, ih hn]
    by_cases heq : h = t
    · subst heq
      simp [hh]
    · simp [heq, Ne.symm heq]

theorem WatchersCounted.newsFor_promote (hw : g.WatchersCounted) (start : Handle)
    (ht : g.tracked? id = some target) :
    newsFor id (g.promote start).2 = if target ∈ g.promotable start then [target] else [] := by
  rw [← flatMap_ite_eq (g.nodup_promotable start)]
  show ((g.promotable start).map fun h =>
    Task.announce h (g.observers h)).flatMap (Task.news id) = _
  rw [List.flatMap_map]
  exact List.flatMap_congr fun h hh => hw.news_announce (isAbstract_of_mem_promotable hh) ht

/-! ## A listener that is told all along -/

/-- What a listener that subscribed to `start` was told so far, and what it is still to be told. -/
structure Telling (g : Graph) (agenda : List Task) (id : ListenerId) (start target : Handle)
    (told : List Delivery) : Prop where
  start_lt : start.index < g.size
  tracked : g.tracked? id = some target
  resolve_eq : g.resolve start = g.resolve target
  follows : Follows id start (told.map Delivery.event) target
  isFinal_of_concrete : ∀ d ∈ told, ∀ ty, d.event = .concrete id ty → d.isFinal
  stage : Stage target (g.node target).isConcrete told (newsFor id agenda)

namespace Telling

variable (ht : Telling g agenda id start target told)

include ht

/-- A listener whose type is not concrete has not heard that it is. -/
theorem not_concrete_mem (hopen : ∀ d ∈ told, d.isFinal = false) (ty : Handle) :
    .concrete id ty ∉ told.map Delivery.event := by
  intro hm
  obtain ⟨d, hd, heq⟩ := List.mem_map.1 hm
  have hfinal := ht.isFinal_of_concrete d hd ty heq
  rw [hopen d hd] at hfinal
  cases hfinal

/-- A change that the listener need not hear of. -/
theorem congr (hs : g.size ≤ g'.size) (htrack : g'.tracked? id = g.tracked? id)
    (hres : g'.resolve start = g'.resolve target)
    (hc : (g'.node target).isConcrete = (g.node target).isConcrete)
    (hn : newsFor id agenda' = newsFor id agenda) : Telling g' agenda' id start target told where
  start_lt := ht.start_lt.trans_le hs
  tracked := htrack.trans ht.tracked
  resolve_eq := hres
  follows := ht.follows
  isFinal_of_concrete := ht.isFinal_of_concrete
  stage := by
    rw [hc, hn]
    exact ht.stage

/-- Only the agenda changes. -/
theorem of_newsFor (hn : newsFor id agenda' = newsFor id agenda) :
    Telling g agenda' id start target told :=
  ht.congr (Nat.le_refl _) rfl ht.resolve_eq rfl hn

theorem rewire (owner old new : Handle) :
    Telling (g.rewire owner old new) agenda id start target told :=
  ht.congr (size_rewire ..).ge (tracked?_congr (subscriptions_rewire ..) id)
    (by rw [resolve_rewire, resolve_rewire, ht.resolve_eq])
    (isConcrete_congr (isAbstract_rewire ..) (forward_rewire ..)) rfl

theorem begin (hwf : g.WellFormed) (hr : g.Refinable old new) :
    Telling (g.begin old new) agenda id start target told := by
  refine ht.congr (size_retire ..).ge (tracked?_congr (subscriptions_retire ..) id) ?_ ?_ rfl
  · rw [resolve_begin hr _ hwf, resolve_begin hr _ hwf, ht.resolve_eq]
  · by_cases heq : target = old
    · -- neither an abstract type is concrete nor a retired one
      rw [isConcrete_of_not_live fun hl => ((live_begin hr target).1 hl).1 heq,
        isConcrete_of_isAbstract (heq ▸ hr.isAbstract)]
    · exact isConcrete_congr (by rw [isAbstract_begin hr, if_neg heq])
        (by rw [forward_begin hr, if_neg heq])

theorem registerProvisional {key : Key} (hr : g.registerProvisional h key = .ok g') :
    Telling g' agenda id start target told := by
  obtain ⟨rfl, -, -⟩ := registerProvisional_eq_ok hr
  have hres : ∀ k, ({ g with registry := g.registry.insert h key .provisional } : Graph).resolve k =
      g.resolve k := resolve_congr rfl fun _ => rfl
  exact ht.congr (Nat.le_refl _) rfl (by rw [hres, hres, ht.resolve_eq]) rfl rfl

/-- A type that becomes concrete is announced to the listener that tracks it. -/
theorem promote (hw : g.WatchersCounted) (start' : Handle) :
    Telling (g.promote start').1 ((g.promote start').2 ++ agenda) id start target told where
  start_lt := by
    rw [size_promote]
    exact ht.start_lt
  tracked := (tracked?_congr (subscriptions_concretizeAll ..) id).trans ht.tracked
  resolve_eq := by
    have hres := resolve_congr (size_promote g start') (forward_promote g start')
    rw [hres, hres, ht.resolve_eq]
  follows := ht.follows
  isFinal_of_concrete := ht.isFinal_of_concrete
  stage := by
    have hstage := ht.stage
    rw [newsFor_append, hw.newsFor_promote start' ht.tracked]
    by_cases hm : target ∈ g.promotable start'
    · rw [isConcrete_of_isAbstract (isAbstract_of_mem_promotable hm)] at hstage
      obtain ⟨hopen, hnews⟩ := hstage.of_not_concrete
      have hlive := (live_promote g start' target).2 (live_of_mem_promotable hm)
      rw [if_pos hm, hnews, isConcrete_of_live hlive, isAbstract_promote, if_pos hm]
      exact .due hopen
    · have hc : ((g.promote start').1.node target).isConcrete = (g.node target).isConcrete :=
        isConcrete_congr (by rw [isAbstract_promote, if_neg hm]) (forward_promote ..)
      rw [if_neg hm, List.nil_append, hc]
      exact hstage

end Telling

/-- The listener of a replaced type hears of the replacement. -/
theorem Attended.telling_move
    (ha : g.Attended (.settle old new (.listener id :: pending) :: rest))
    (ho : id ∈ (g.node old).watchers)
    (ht : Telling g (.settle old new (.listener id :: pending) :: rest) id start target told) :
    Telling (g.moveListener id old (g.resolve new)).1 (.settle old new pending :: rest) id start
      (g.resolve new)
      (told ++ [(g.moveListener id old (g.resolve new)).1.deliver
        (.refined id old (g.resolve new))]) := by
  have htrack := ha.watchers.tracked?_eq ho
  obtain rfl : target = old := Option.some.inj (ht.tracked.symm.trans htrack)
  have hb := fun k => g.bare_moveListener target (g.resolve new) k id
  have hres := fun k => resolve_congr (size_moveListener g target (g.resolve new) id)
    (fun k => Node.forward_of_bare (hb k)) k
  obtain ⟨hnew, -, hresolve⟩ := ha.resolve_settle List.mem_cons_self
  have hstage := ht.stage
  rw [isConcrete_of_not_live (ha.not_live_of_settle List.mem_cons_self)] at hstage
  obtain ⟨hopen, hnews⟩ := hstage.of_not_concrete
  refine ⟨?_, ?_, ?_, ?_, ?_, ?_⟩
  · rw [size_moveListener]
    exact ht.start_lt
  · rw [tracked?_moveListener htrack, if_pos rfl]
  · rw [hres, hres, ht.resolve_eq, hresolve, hnew.resolve_eq]
  · rw [List.map_append]
    exact ht.follows.refine (ht.not_concrete_mem hopen)
  · intro d hd ty heq
    rcases List.mem_append.1 hd with hd | hd
    · exact ht.isFinal_of_concrete d hd ty heq
    · rw [List.mem_singleton.1 hd] at heq
      cases heq
  · have hnews' : newsFor id (.settle target new pending :: rest) = [] := hnews
    rw [hnews', isConcrete_of_bare (hb _), isConcrete_of_live hnew, deliver,
      Node.isAbstract_of_bare (hb _)]
    cases (g.node (g.resolve new)).isAbstract with
    | true => exact .waiting (List.forall_mem_append.2 ⟨hopen, by simp⟩)
    | false => exact .done hopen rfl

/-- The listener of a type that became concrete hears so. -/
theorem Telling.hear {ty : Handle}
    (ht : Telling g (.announce ty (.listener id :: pending) :: rest) id start target told) :
    g.concreteEvents id ty = [.concrete id ty] ∧
      Telling g (.announce ty pending :: rest) id start target
        (told ++ [g.deliver (.concrete id ty)]) := by
  have hstage := ht.stage
  rw [newsFor_announce_self] at hstage
  obtain ⟨hopen, hc, rfl, hnews⟩ := hstage.of_cons
  constructor
  · unfold concreteEvents
    rw [ht.tracked]
    rfl
  · refine ⟨ht.start_lt, ht.tracked, ht.resolve_eq, ?_, fun d hd ty' heq => ?_, ?_⟩
    · rw [List.map_append]
      exact ht.follows.finish (ht.not_concrete_mem hopen)
    · rcases List.mem_append.1 hd with hd | hd
      · exact ht.isFinal_of_concrete d hd ty' heq
      · rw [List.mem_singleton.1 hd]
        rfl
    · rw [hc, hnews]
      exact .done hopen rfl

/-! ## Steps and runs -/

theorem toListener_nil : toListener id [] = [] := rfl

theorem toListener_deliver_self {e : Event} (he : e.listener = id) :
    toListener id [g.deliver e] = [g.deliver e] := by
  unfold toListener
  exact List.filter_eq_self.2 (by simpa [event_deliver] using he)

theorem toListener_deliver_of_ne {e : Event} (he : e.listener ≠ id) :
    toListener id [g.deliver e] = [] := by
  unfold toListener
  exact List.filter_eq_nil_iff.2 (by simpa [event_deliver] using he)

/-- Nobody else hears that the type of a listener became concrete. -/
theorem toListener_concreteEvents_of_ne {a : ListenerId} (ha : a ≠ id) (ty : Handle) :
    toListener id ((g.concreteEvents a ty).map g.deliver) = [] := by
  unfold concreteEvents
  split
  · exact toListener_deliver_of_ne ha
  · rfl

/-- Each advance tells the listener what it is due to hear. -/
theorem Advance.telling (hx : Advance g agenda events g' agenda') (hs : g.Steady agenda)
    (ht : Telling g agenda id start target told) :
    ∃ target', Telling g' agenda' id start target'
      (told ++ toListener id (events.map g'.deliver)) := by
  have ha := hs.attended
  cases hx with
  | settled | pass | announced =>
    rw [List.map_nil, toListener_nil, List.append_nil]
    exact ⟨target, ht.of_newsFor rfl⟩
  | @move old new a pending rest ho =>
    have htrack := ha.watchers.tracked?_eq ho
    have hevents : (g.moveListener a old (g.resolve new)).2 = [.refined a old (g.resolve new)] := by
      rw [moveListener_of_mem htrack]
    rw [hevents, List.map_singleton]
    by_cases heq : a = id
    · rw [toListener_deliver_self (by exact heq)]
      subst heq
      exact ⟨_, ha.telling_move ho ht⟩
    · rw [toListener_deliver_of_ne (by exact heq), List.append_nil]
      have hb := fun k => g.bare_moveListener old (g.resolve new) k a
      have hres := resolve_congr (size_moveListener g old (g.resolve new) a)
        fun k => Node.forward_of_bare (hb k)
      refine ⟨target, ht.congr (size_moveListener ..).ge ?_ ?_ (isConcrete_of_bare (hb _)) rfl⟩
      · rw [tracked?_moveListener htrack, if_neg (Ne.symm heq)]
      · rw [hres, hres, ht.resolve_eq]
  | @collapse _ old new owner existing _ pending rest ho hg hk he hr =>
    subst hg
    rw [List.map_nil, toListener_nil, List.append_nil]
    have hwf := (ha.toPoised.rewire ho).wellFormed
    exact ⟨target, ((ht.rewire owner old (g.resolve new)).begin hwf hr).of_newsFor rfl⟩
  | @keep _ g'' old new owner _ pending rest ho hg hk he hr =>
    subst hg
    rw [List.map_nil, toListener_nil, List.append_nil]
    have hw := (ha.watchers.rewire owner old (g.resolve new)).registerProvisional hr
    have hkept : Telling g'' (.settle old new pending :: rest) id start target told :=
      ((ht.rewire owner old (g.resolve new)).registerProvisional hr).of_newsFor rfl
    exact ⟨target, hkept.promote hw owner⟩
  | @promote ty owner pending rest ho =>
    rw [List.map_nil, toListener_nil, List.append_nil]
    have hrest := ht.of_newsFor (newsFor_announce_owner id ty owner pending rest).symm
    exact ⟨target, hrest.promote ha.watchers owner⟩
  | @hear ty a pending rest =>
    by_cases heq : a = id
    · subst heq
      obtain ⟨hevents, hheard⟩ := ht.hear
      have hself : toListener a [g.deliver (.concrete a ty)] = [g.deliver (.concrete a ty)] :=
        toListener_deliver_self rfl
      rw [hevents, List.map_singleton, hself]
      exact ⟨target, hheard⟩
    · rw [toListener_concreteEvents_of_ne heq, List.append_nil]
      exact ⟨target, ht.of_newsFor (newsFor_announce_of_ne heq ty pending rest).symm⟩

/-- What the first task delivers comes first. -/
theorem deliveries_cons {t : Task} {rest : List Task} (hf : t.fault? = none) :
    g.deliveries (t :: rest) = (g.step t).events.map (g.step t).graph.deliver ++
      (g.step t).graph.deliveries ((g.step t).tasks ++ rest) := by
  rw [deliveries, hf]

/-- What each advance keeps, given what it delivers, holds at the end of a run with all that was
delivered, whether or not the first task of the agenda is a refinement that is still to begin. -/
theorem deliveries_induction {P : Graph → List Task → List Delivery → Prop}
    (hstep : ∀ {g agenda events g' agenda' told}, g.Steady agenda → P g agenda told →
      Advance g agenda events g' agenda' → P g' agenda' (told ++ events.map g'.deliver))
    {heard : List Event} {out : Graph × List Event} (h : g.run agenda heard = .ok out)
    (told : List Delivery) :
    (g.Steady agenda → P g agenda told → P out.1 [] (told ++ g.deliveries agenda)) ∧
    ∀ old new rest, agenda = .refine old new :: rest → g.Refinable old new →
      (g.begin old new).Steady (g.settling old new :: rest) →
      P (g.begin old new) (g.settling old new :: rest) told →
      P out.1 [] (told ++ g.deliveries agenda) := by
  fun_induction run g agenda heard generalizing told with
  | case1 g heard =>
    cases h
    rw [deliveries, List.append_nil]
    exact ⟨fun _ hP => hP, fun _ _ _ heq => by cases heq⟩
  | case2 g heard t rest f hf => cases h
  | case3 g heard t rest hf next ih =>
    obtain ⟨ihsteady, ihrefine⟩ := ih h (told ++ next.events.map next.graph.deliver)
    rw [deliveries_cons hf, ← List.append_assoc]
    constructor
    · intro hs hP
      rcases hs.advance_of_step with
        hadv | ⟨old, new, owner, existing, pending, rfl, hcollapse, hout⟩
      · exact ihsteady (hadv.steady hs) (hstep hs hP hadv)
      · -- the owner is refined next, and the rewiring told nobody anything
        obtain ⟨key, hk, he⟩ := hcollapse.exists_key
        have hr := (hs.attended.redirects hcollapse.mem_owners).refinable hk he
        have hadv : Advance g (.settle old new (.owner owner :: pending) :: rest) [] _
            (_ :: .settle old new pending :: rest) := hcollapse.advance hr
        have hkeep := hstep hs hP hadv
        rw [List.map_nil, List.append_nil] at hkeep
        have hout' : next = _ := hout
        rw [hout', List.map_nil, List.append_nil] at ihrefine
        rw [hout, List.map_nil, List.append_nil]
        exact ihrefine owner existing (.settle old new pending :: rest) rfl hr
          (hadv.steady hs) hkeep
    · rintro old new rest' heq hr hs hP
      obtain ⟨rfl, rfl⟩ := List.cons.inj heq
      have hout : g.step (.refine old new) = ⟨g.begin old new, [g.settling old new], []⟩ :=
        hr.refineStep_eq
      have hout' : next = _ := hout
      rw [hout', List.map_nil, List.append_nil] at ihsteady
      rw [hout, List.map_nil, List.append_nil]
      exact ihsteady hs hP

/-- A refinement in a reachable graph, by what each of its advances keeps. -/
theorem Reachable.refine_deliveries {P : Graph → List Task → List Delivery → Prop}
    (hg : Reachable g) (hlt : new.index < g.size) {out : Graph × List Event}
    (h : g.refine old new = .ok out) (told : List Delivery)
    (hbegin : g.Refinable old new → P (g.begin old new) [g.settling old new] told)
    (hstep : ∀ {g agenda events g' agenda' told}, g.Steady agenda → P g agenda told →
      Advance g agenda events g' agenda' → P g' agenda' (told ++ events.map g'.deliver)) :
    P out.1 [] (told ++ g.deliveries [.refine old new]) := by
  have hr := refinable_of_refine h
  cases hg.sound hr hlt with
  | steady hs => exact absurd List.mem_cons_self (hs.begun old new)
  | beginning _ hs => exact (deliveries_induction hstep h told).2 old new [] rfl hr hs (hbegin hr)

/-- A refinement tells the listener what it is due to hear. -/
theorem Reachable.telling_refine {out : Graph × List Event} (hg : Reachable g)
    (hlt : new.index < g.size) (h : g.refine old new = .ok out)
    (ht : Telling g [] id start target told) :
    ∃ target', Telling out.1 [] id start target'
      (told ++ toListener id (g.deliveries [.refine old new])) := by
  have hend := hg.refine_deliveries hlt h []
    (P := fun g agenda all =>
      ∃ target', Telling g agenda id start target' (told ++ toListener id all))
    (fun hr => ?_) fun hs ⟨target', ht'⟩ hx => ?_
  · rwa [List.nil_append] at hend
  · rw [toListener_nil, List.append_nil]
    exact ⟨target, (ht.begin hg.consistent.wellFormed hr).of_newsFor rfl⟩
  · rw [toListener_append, ← List.append_assoc]
    exact hx.telling hs ht'

/-! ## A listener that was taken back -/

/-- The subscription was cancelled. -/
structure Cancelled (g : Graph) (id : ListenerId) : Prop where
  lt : id.index < g.subscriptions.size
  tracked : g.tracked? id = none

theorem Cancelled.congr (hu : g.Cancelled id) (hsub : g'.subscriptions = g.subscriptions) :
    g'.Cancelled id :=
  ⟨by rw [hsub]; exact hu.lt, (tracked?_congr hsub id).trans hu.tracked⟩

theorem size_subscriptions_track (g : Graph) (id : ListenerId) (ty : Option Handle) :
    (g.track id ty).subscriptions.size = g.subscriptions.size := Array.size_setIfInBounds

/-- No advance tells a cancelled subscription anything. -/
theorem Advance.cancelled (hx : Advance g agenda events g' agenda') (hs : g.Steady agenda)
    (hu : g.Cancelled id) :
    g'.Cancelled id ∧ toListener id (events.map g'.deliver) = [] := by
  cases hx with
  | settled | pass | announced => exact ⟨hu, rfl⟩
  | @move old new a pending rest ho =>
    have htrack := hs.attended.watchers.tracked?_eq ho
    have hne : a ≠ id := by
      rintro rfl
      rw [hu.tracked] at htrack
      cases htrack
    refine ⟨⟨?_, ?_⟩, ?_⟩
    · rw [moveListener_of_mem htrack]
      exact hu.lt.trans_eq (size_subscriptions_track ..).symm
    · rw [tracked?_moveListener htrack, if_neg (Ne.symm hne)]
      exact hu.tracked
    · rw [moveListener_of_mem htrack]
      exact toListener_deliver_of_ne (by exact hne)
  | collapse ho hg =>
    subst hg
    exact ⟨hu.congr ((subscriptions_retire ..).trans (subscriptions_rewire ..)), rfl⟩
  | @keep _ g'' old new owner _ pending rest ho hg hk he hr =>
    subst hg
    obtain ⟨rfl, -, -⟩ := registerProvisional_eq_ok hr
    exact ⟨hu.congr ((subscriptions_concretizeAll ..).trans (g.subscriptions_rewire ..)), rfl⟩
  | promote => exact ⟨hu.congr (subscriptions_concretizeAll ..), rfl⟩
  | @hear ty a pending rest =>
    refine ⟨hu, ?_⟩
    by_cases heq : a = id
    · unfold concreteEvents
      rw [heq, hu.tracked]
      rfl
    · exact toListener_concreteEvents_of_ne heq ty

theorem Reachable.cancelled_refine {out : Graph × List Event} (hg : Reachable g)
    (hlt : new.index < g.size) (h : g.refine old new = .ok out) (hu : g.Cancelled id) :
    out.1.Cancelled id ∧ toListener id (g.deliveries [.refine old new]) = [] := by
  refine hg.refine_deliveries hlt h []
    (P := fun g _ all => g.Cancelled id ∧ toListener id all = []) (fun hr => ?_) fun hs hP hx => ?_
  · exact ⟨hu.congr (subscriptions_retire ..), rfl⟩
  · obtain ⟨hu', hnone⟩ := hx.cancelled hs hP.1
    exact ⟨hu', by rw [toListener_append, hP.2, hnone, List.append_nil]⟩

end Graph

end TypeGraph
