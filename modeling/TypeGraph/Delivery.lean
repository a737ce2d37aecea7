import TypeGraph.Script

/-!
# Deliveries

What listeners hear during a refinement, each event together with whether it is the last one for its
listener. It is when the type that it names was concrete at the time. `deliveries` goes through an
agenda like `run`, so the events are those that `run` gives (`map_event_deliveries`).
-/

namespace TypeGraph

/-- Who hears of the event. -/
def Event.listener : Event → ListenerId
  | refined id _ _ | concrete id _ => id

/-- An event that was delivered to its listener. -/
structure Delivery where
  event : Event
  /-- The type of the listener was concrete by then. -/
  isFinal : Bool
deriving DecidableEq, Repr

/-- The deliveries to one listener. -/
def toListener (id : ListenerId) (told : List Delivery) : List Delivery :=
  told.filter fun d => d.event.listener = id

namespace Graph

/-- Delivers an event in the graph as it is. -/
def deliver (g : Graph) : Event → Delivery
  | .refined id old new => ⟨.refined id old new, !(g.node new).isAbstract⟩
  | .concrete id ty => ⟨.concrete id ty, true⟩

/-- What is delivered while an agenda is worked off. -/
def deliveries (g : Graph) (agenda : List Task) : List Delivery :=
  match agenda with
  | [] => []
  | t :: rest =>
    match t.fault? with
    | some _ => []
    | none =>
      let out := g.step t
      out.events.map out.graph.deliver ++ out.graph.deliveries (out.tasks ++ rest)
termination_by (g.abstractCount, weight agenda)
decreasing_by exact (g.step_nearer t).lex rest

/-- What an action delivers. Only refinements have anything to tell. -/
def delivered (g : Graph) : Action → List Delivery
  | .refine old new => g.deliveries [.refine old new]
  | .integer _ | .function _ _ _ _ | .struct _ _ | .array _ _ | .vector _ _ | .pointer _
  | .placeholder | .subscribe _ | .unsubscribe _ => []

/-- What a script delivers. -/
def deliveredAll (g : Graph) : List Action → List Delivery
  | [] => []
  | a :: script => g.delivered a ++ (g.after a).deliveredAll script

theorem event_deliver (g : Graph) (e : Event) : (g.deliver e).event = e := by
  cases e <;> rfl

/-- The events of a run are those that were delivered on the way. -/
theorem map_event_deliveries {g : Graph} {agenda : List Task} {heard : List Event}
    {out : Graph × List Event} (h : g.run agenda heard = .ok out) :
    out.2 = heard ++ (g.deliveries agenda).map Delivery.event := by
  fun_induction run g agenda heard with
  | case1 g heard =>
    cases h
    rw [deliveries, List.map_nil, List.append_nil]
  | case2 g heard t rest f hf => cases h
  | case3 g heard t rest hf next ih =>
    have hevents : Delivery.event ∘ next.graph.deliver = id := funext next.graph.event_deliver
    rw [ih h, deliveries, hf]
    simp only [List.map_append, List.map_map, List.append_assoc]
    show heard ++ (next.events ++ _) = heard ++ (next.events.map (Delivery.event ∘ _) ++ _)
    rw [hevents, List.map_id]

/-- The events of an action are those that it delivers. -/
theorem map_event_delivered {g : Graph} {a : Action} {p : Performed} (hp : g.perform a = .ok p) :
    (g.delivered a).map Delivery.event = p.events := by
  have hmade : ∀ {ε : Type} {x : Except ε (Handle × Graph)} {f : ε → Failure},
      (x.mapError f).map Performed.ofMade = .ok p → p.events = [] := by
    intro ε x f hx
    cases x with
    | error e => cases hx
    | ok made =>
      cases hx
      rfl
  cases a with
  | integer | vector => exact (hmade hp).symm
  | function | struct | array | pointer | placeholder =>
    cases hp
    rfl
  | refine old new =>
    rw [perform] at hp
    split at hp
    · next g' events h =>
      cases hp
      exact (map_event_deliveries h).symm
    · cases hp
  | subscribe ty =>
    rw [perform] at hp
    split at hp <;> cases hp <;> rfl
  | unsubscribe id =>
    rw [perform] at hp
    split at hp <;> cases hp <;> rfl

end Graph

end TypeGraph
