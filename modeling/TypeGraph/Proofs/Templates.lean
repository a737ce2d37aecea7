import TypeGraph.Proofs.Trees
import TypeGraph.Template

/-!
# Refining a placeholder fills a template

A template is built with a placeholder for its holes, and then the placeholder is refined. If no
refinement ever replaced a type by one that holds it, the result is the type that is built directly
with the replacement for the holes, so building that makes nothing.

1. `exists_built`: a template that fits the graph can be built, and again in each graph
   that carries its types over and resolves the holes alike.
2. `TreeReachable.fillsDirectly`: the refinement of a placeholder leads to such a graph.
-/

namespace TypeGraph

/-- The template is of a type that a vector can hold: an integer, or a leaf that is one or a float. -/
def Template.IsScalar (g : Graph) : Template → Prop
  | leaf h => (g.kind h).isVectorElement
  | hole => False
  | node shape _ => shape.kind = .integer

/-- The template can be built in the graph: its leaves are there, and each shape is one of a factory
with as many parts as it takes. -/
inductive Template.Fits (g : Graph) : Template → Prop where
  | leaf {h : Handle} (hh : h.index < g.size) : Fits g (leaf h)
  | hole : Fits g hole
  | node {shape : Shape} {parts : List Template} (hu : shape.kind.isUniqued)
      (ht : shape.Takes parts.length)
      (hv : ∀ {bits}, shape = .integer bits → IntegerWidth.isValid bits)
      (hs : ∀ {len}, shape = .vector len → ∀ t ∈ parts, t.IsScalar g)
      (hp : ∀ t ∈ parts, Fits g t) : Fits g (node shape parts)

namespace Graph

/-- The template was built with `o` for its holes. Since the graph may have grown before from one in
which the template fits, that one is given too. -/
structure Built (base g : Graph) (o : Handle) (t : Template) (p : Handle) (g' : Graph) : Prop where
  build_eq : g.build o t = some (p, g')
  grows : Grows g g'
  lt : p.index < g'.size
  isVectorElement : t.IsScalar base → (g'.kind p).isVectorElement
  /-- Where `o` stands for what `fill` stands for, the template is there already with `fill` for its
  holes. -/
  refills : ∀ {g'' fill}, Reachable g'' → g'.Carries g'' → g''.resolve o = g''.resolve fill →
    ∃ q, g''.build fill t = some (q, g'') ∧ g''.resolve q = g''.resolve p ∧
      (t.isNode → q = g''.resolve p)

/-- The templates of a list were built with `o` for their holes. -/
structure BuiltAll (base g : Graph) (o : Handle) (ts : List Template) (ps : List Handle)
    (g' : Graph) : Prop where
  buildAll_eq : g.buildAll o ts = some (ps, g')
  grows : Grows g g'
  parts : List.Forall₂ (fun t p => p.index < g'.size ∧
    (t.IsScalar base → (g'.kind p).isVectorElement)) ts ps
  refills : ∀ {g'' fill}, Reachable g'' → g'.Carries g'' → g''.resolve o = g''.resolve fill →
    ∃ qs, g''.buildAll fill ts = some (qs, g'') ∧ qs.map g''.resolve = ps.map g''.resolve

variable {base g g' : Graph} {o p : Handle} {t : Template} {a : Action}

/-- Refining a placeholder that a template was built with leads to the type that is built directly
with its replacement. -/
structure FillsDirectly (g : Graph) (t : Template) : Prop where
  /-- The template is built with a live placeholder, then the placeholder is refined to a live type
  that does not reach it. Building the template with that type gives what the first type stands for,
  and changes nothing. -/
  direct : ∀ {o fill}, g.Live o → (g.node o).isPlaceholder → fill.index < g.size → g.Live fill →
    ¬ g.Reaches fill o → ∃ p g₁ g₂ events q, g.build o t = some (p, g₁) ∧
      g₁.refine o fill = .ok (g₂, events) ∧ g₂.build fill t = some (q, g₂) ∧
      g₂.resolve q = g₂.resolve p ∧ (t.isNode → q = g₂.resolve p)
  /-- The same, if there are other actions before the refinement. -/
  later : ∀ {o}, g.Live o → (g.node o).isPlaceholder → ∃ p g₁, g.build o t = some (p, g₁) ∧
    Grows g g₁ ∧ ∀ {g₂ fill}, Grows g₁ g₂ → fill.index < g₂.size → g₂.Live fill →
      ¬ g₂.Reaches fill o → ∃ g₃ events q, g₂.refine o fill = .ok (g₃, events) ∧
        g₃.build fill t = some (q, g₃) ∧ g₃.resolve q = g₃.resolve p ∧
        (t.isNode → q = g₃.resolve p)
  /-- Two copies of the template, built with different placeholders, become one when both
  placeholders are refined to a type that reaches neither. -/
  copies : ∀ {o o'}, g.Live o → (g.node o).isPlaceholder → g.Live o' →
    (g.node o').isPlaceholder → o ≠ o' → ∃ p g₁ p' g₂, g.build o t = some (p, g₁) ∧
      g₁.build o' t = some (p', g₂) ∧ ∀ {g₃ fill}, Grows g₂ g₃ → fill.index < g₃.size →
        g₃.Live fill → ¬ g₃.Reaches fill o → ¬ g₃.Reaches fill o' →
          ∃ g₄ events g₅ events', g₃.refine o fill = .ok (g₄, events) ∧
            g₄.refine o' fill = .ok (g₅, events') ∧ g₅.resolve p = g₅.resolve p'

/-! ## Building -/

theorem make?_eq {events : List Event} (hp : g.perform a = .ok ⟨g', .made p, events⟩) :
    g.make? a = some (p, g') := by
  unfold make?
  rw [hp]

/-- Growth keeps the kinds of types. -/
theorem Grows.kind_eq (hx : Grows g g') (hg : Reachable g) (hp : p.index < g.size) :
    g'.kind p = g.kind p :=
  (hx.extends hg).kind_eq hg.consistent.wellFormed (hx.leads.reachable hg).consistent.wellFormed hp

theorem Grows.carries (hx : Grows g g') (hg : Reachable g) : g.Carries g' :=
  (hx.extends hg).carries hg.consistent (hx.leads.reachable hg).consistent.wellFormed

/-- Templates that can be built one by one can be built in order. -/
theorem exists_builtAll {ts : List Template}
    (hts : ∀ t ∈ ts, ∀ {g}, Reachable g → Grows base g → ∃ p g', Built base g o t p g')
    (hg : Reachable g) (hx : Grows base g) : ∃ ps g', BuiltAll base g o ts ps g' := by
  induction ts generalizing g with
  | nil =>
    refine ⟨[], g, rfl, .refl, .nil, fun _ _ _ => ⟨[], rfl, rfl⟩⟩
  | cons t ts ih =>
    obtain ⟨ht, hts⟩ := List.forall_mem_cons.1 hts
    obtain ⟨p, g₁, hfirst⟩ := ht hg hx
    have hg₁ : Reachable g₁ := hfirst.grows.leads.reachable hg
    obtain ⟨ps, g₂, hrest⟩ := ih hts hg₁ (hx.trans hfirst.grows)
    refine ⟨p :: ps, g₂, ?_, hfirst.grows.trans hrest.grows, .cons ⟨?_, fun hs => ?_⟩ hrest.parts,
      fun {g'' fill} hg'' hcarry ho => ?_⟩
    · rw [buildAll, hfirst.build_eq]
      simp only [hrest.buildAll_eq]
    · exact (hrest.grows.extends hg₁).lt hfirst.lt
    · rw [hrest.grows.kind_eq hg₁ hfirst.lt]
      exact hfirst.isVectorElement hs
    · have hwf₂ := (hrest.grows.leads.reachable hg₁).consistent.wellFormed
      obtain ⟨q, hq, hsame, -⟩ :=
        hfirst.refills hg'' ((hrest.grows.carries hg₁).trans hcarry hwf₂) ho
      obtain ⟨qs, hqs, hsame'⟩ := hrest.refills hg'' hcarry ho
      refine ⟨q :: qs, ?_, by rw [List.map_cons, List.map_cons, hsame, hsame']⟩
      rw [buildAll, hq]
      simp only [hqs]

/-- A derived type that is carried over is given by its factory again, over all components that stand
for what its slots stand for, and nothing changes. -/
theorem Carries.perform_again (hcarry : g.Carries g') (hg' : Reachable g') (hlt : p.index < g.size)
    (hl : g.Live p) {shape : Shape} {slots parts : List Handle} (hu : shape.kind.isUniqued)
    (hkey : (g.node p).key = ⟨shape.trimmed, slots⟩)
    (hparts : parts.map g'.resolve = slots.map g'.resolve) :
    ∃ a, shape.call? parts = some a ∧ g'.perform a = .ok ⟨g', .made (g'.resolve p), []⟩ := by
  have hkind : (g.node p).kind = shape.kind := (congrArg Key.kind hkey).trans (trimmed_kind shape)
  have hnot : (g.node p).isPlaceholder = false := by
    rw [Node.isPlaceholder, hkind]
    exact not_isPlaceholder_of_isUniqued (n := .fresh shape [] false) hu
  have hover := hcarry.key_eq hlt hl hnot
  have hshape : (g'.node (g'.resolve p)).shape = shape.trimmed :=
    (congrArg Key.shape hover).trans (congrArg Key.shape hkey)
  have hslots : parts.map g'.resolve = (g'.node (g'.resolve p)).slots := by
    have hold : (g.node p).slots = slots := congrArg Key.parts hkey
    rw [hparts, ← hold]
    exact (congrArg Key.parts hover).symm
  have hlive := hg'.consistent.wellFormed.live_resolve p
  have huniqued : (g'.node (g'.resolve p)).kind.isUniqued := by
    rw [Node.kind, hshape, trimmed_kind]
    exact hu
  obtain ⟨a, hcall, -, hrequested⟩ := hg'.exists_call hlive huniqued hshape hslots
  exact ⟨a, hcall, hg'.consistent.perform_eq_self hlive hrequested⟩

/-- A shape over built parts is built by its factory. -/
theorem exists_built_node {shape : Shape} {parts : List Template} {ps : List Handle}
    (hu : shape.kind.isUniqued) (ht : shape.Takes parts.length)
    (hv : ∀ {bits}, shape = .integer bits → IntegerWidth.isValid bits)
    (hs : ∀ {len}, shape = .vector len → ∀ t ∈ parts, t.IsScalar base)
    (hg : Reachable g) (hparts : BuiltAll base g o parts ps g') :
    ∃ p g₂, Built base g o (.node shape parts) p g₂ := by
  have hg' : Reachable g' := hparts.grows.leads.reachable hg
  have hgrants : g'.Grants shape ps := by
    refine ⟨hu, hparts.parts.length_eq ▸ ht, hv, fun hlen p hp => ?_⟩
    obtain ⟨t, ht, -, hscalar⟩ := exists_of_forall₂ hparts.parts hp
    exact hscalar (hs hlen t ht)
  obtain ⟨a, hcall, hhandles, hrequested⟩ := hgrants.exists_call
  have ha : ∀ h ∈ a.handles, h.index < g'.size := by
    intro p hp
    rw [hhandles] at hp
    obtain ⟨t, -, hlt, -⟩ := exists_of_forall₂ hparts.parts hp
    exact hlt
  obtain ⟨p, g₂, hp, hg₂, hx, hl, hlt, hkey⟩ := hg'.perform_factory ha hrequested
  have hkind : (g₂.node p).kind = shape.kind := by
    rw [← trimmed_kind shape]
    exact congrArg Key.kind hkey
  have hgrows : Grows g' g₂ := by
    refine Grows.refl.perform ha ?_ hp
    rintro old new rfl
    cases hrequested
  refine ⟨p, g₂, ?_, hparts.grows.trans hgrows, hlt, fun hscalar => ?_,
    fun {g'' fill} hg'' hcarry ho => ?_⟩
  · rw [build, hparts.buildAll_eq]
    simp only [hcall, Option.bind_some, make?_eq hp]
  · have hint : shape.kind = .integer := hscalar
    unfold kind live
    rw [hl.resolve_eq, hkind, hint]
    rfl
  · -- the type that was made is there, over what its parts stand for now
    have hcarry' : g'.Carries g'' :=
      (hx.carries hg'.consistent hg₂.consistent.wellFormed).trans hcarry hg₂.consistent.wellFormed
    obtain ⟨qs, hqs, hsame⟩ := hparts.refills hg'' hcarry' ho
    have hsame' : qs.map g''.resolve = (ps.map g'.resolve).map g''.resolve := by
      rw [hsame, List.map_map]
      exact List.map_congr_left fun s _ => (hcarry'.resolve_resolve s).symm
    obtain ⟨a', hcall', hp'⟩ := hcarry.perform_again hg'' hlt hl hu hkey hsame'
    refine ⟨g''.resolve p, ?_, (hg''.consistent.wellFormed.live_resolve p).resolve_eq, fun _ => rfl⟩
    rw [build, hqs]
    simp only [hcall', Option.bind_some, make?_eq hp']

/-- **Building.** A template that fits can be built, and again wherever its types are carried over
to. -/
theorem exists_built (ht : t.Fits base) (hbase : Reachable base)
    (ho : o.index < base.size) (hg : Reachable g) (hx : Grows base g) :
    ∃ p g', Built base g o t p g' := by
  induction ht generalizing g with
  | @leaf h hh =>
    refine ⟨h, g, rfl, .refl, (hx.extends hbase).lt hh, fun hs => ?_, fun _ _ _ => ?_⟩
    · rw [hx.kind_eq hbase hh]
      exact hs
    · exact ⟨h, rfl, rfl, fun hn => by cases hn⟩
  | hole =>
    refine ⟨o, g, rfl, .refl, (hx.extends hbase).lt ho, fun hs => hs.elim, fun _ _ heq => ?_⟩
    exact ⟨_, rfl, heq.symm, fun hn => by cases hn⟩
  | node hu hk hv hs _ ih =>
    obtain ⟨ps, g', hparts⟩ := exists_builtAll (fun t ht _ hg hx => ih t ht hg hx) hg hx
    exact exists_built_node hu hk hv hs hg hparts

/-! ## Refining the placeholder -/

theorem Grows.treeReachable (hx : Grows g g') (hg : TreeReachable g) : TreeReachable g' := by
  induction hx with
  | refl => exact hg
  | perform _ ha hr hp ih => exact ih.perform ha (fun old new heq => absurd heq (hr old new)) hp

/-- A live placeholder can be refined to a type that does not reach it. All types are carried over,
and the placeholder stands for what the type stands for. -/
theorem TreeReachable.exists_refine_placeholder (hg : TreeReachable g) {o fill : Handle}
    (ho : g.Live o) (hp : (g.node o).isPlaceholder) (hlt : fill.index < g.size)
    (hno : ¬ g.Reaches (g.resolve fill) o) : ∃ g' events, g.refine o fill = .ok (g', events) ∧
      TreeReachable g' ∧ g.Carries g' ∧ g'.resolve o = g'.resolve fill := by
  have hreach := hg.reachable
  have hr : g.Refinable o fill := by
    refine ⟨ho, hreach.consistent.wellFormed.isAbstract_of_placeholder ho hp, ?_⟩
    rintro rfl
    exact hno (.refl _)
  obtain ⟨⟨g', events⟩, h⟩ := (hreach.sound hr hlt).exists_run []
  have h' : g.refine o fill = .ok (g', events) := h
  have hg' := hreach.refine hr.old_lt hlt h'
  have hcarry := hreach.carries_refine hg.grounded hlt h' hno hp
  refine ⟨g', events, h', ?_, hcarry, ?_⟩
  · refine hg.perform (a := .refine o fill) (p := ⟨g', .refined (g'.resolve o), events⟩)
      (by simp [Action.handles, hr.old_lt, hlt]) ?_ (by rw [Graph.perform, h'])
    rintro _ _ ⟨⟩
    exact hno
  · rw [hg'.consistent.wellFormed.forwardsEnd.resolve_of_forward_some
      (hreach.forwards_refine hlt h'), hcarry.resolve_resolve]

/-- The same for a live type. -/
theorem TreeReachable.exists_refine (hg : TreeReachable g) {o fill : Handle} (ho : g.Live o)
    (hp : (g.node o).isPlaceholder) (hlt : fill.index < g.size) (hl : g.Live fill)
    (hno : ¬ g.Reaches fill o) : ∃ g' events, g.refine o fill = .ok (g', events) ∧
      TreeReachable g' ∧ g.Carries g' ∧ g'.resolve o = g'.resolve fill :=
  hg.exists_refine_placeholder ho hp hlt (by rwa [hl.resolve_eq])

/-- A live placeholder stays one while the graph grows. -/
theorem Grows.placeholder (hx : Grows g g') (hg : Reachable g) {o : Handle} (ho : g.Live o)
    (hp : (g.node o).isPlaceholder) : g'.Live o ∧ (g'.node o).isPlaceholder := by
  have hlt := WellFormed.lt_of_isAbstract
    (hg.consistent.wellFormed.isAbstract_of_placeholder ho hp)
  have hkeep := (hx.extends hg).untouched hlt
  exact ⟨hkeep.live_iff.2 ho, isPlaceholder_of_shape (Node.shape_of_bare hkeep.bare_eq) hp⟩

/-- A placeholder reaches itself only. -/
theorem WellFormed.eq_of_reaches (hwf : g.WellFormed) {o h : Handle} (ho : g.Live o)
    (hp : (g.node o).isPlaceholder) (hr : g.Reaches o h) : o = h := by
  cases hr with
  | refl => rfl
  | step hb _ =>
    have ht := hwf.takes ho
    have hs : (g.node o).shape = .placeholder := by
      rw [Node.isPlaceholder, decide_eq_true_eq] at hp
      unfold Node.kind at hp
      cases hshape : (g.node o).shape <;> rw [hshape] at hp <;> cases hp
    rw [hs] at ht
    unfold targets at hb
    rw [List.length_eq_zero_iff.1 ht] at hb
    cases hb

/-- A built placeholder can be refined, whatever was made in between, and then the template is there
with the replacement for its holes. -/
theorem TreeReachable.refine_built (hg : TreeReachable g) {o fill : Handle} {g₁ g₂ : Graph}
    (ho : g.Live o) (hp : (g.node o).isPlaceholder) (hbuilt : Built g g o t p g₁)
    (hx : Grows g₁ g₂) (hfill : fill.index < g₂.size) (hl : g₂.Live fill)
    (hno : ¬ g₂.Reaches fill o) : ∃ g₃ events q, g₂.refine o fill = .ok (g₃, events) ∧
      g₃.build fill t = some (q, g₃) ∧ g₃.resolve q = g₃.resolve p ∧
      (t.isNode → q = g₃.resolve p) := by
  have hx₂ := hbuilt.grows.trans hx
  have hg₁ := hbuilt.grows.leads.reachable hg.reachable
  have hg₂ := hx₂.treeReachable hg
  obtain ⟨ho₂, hp₂⟩ := hx₂.placeholder hg.reachable ho hp
  obtain ⟨g₃, events, h, hg₃, hcarry, hsame⟩ := hg₂.exists_refine ho₂ hp₂ hfill hl hno
  have hcarry₁ := (hx.carries hg₁).trans hcarry hg₂.reachable.consistent.wellFormed
  obtain ⟨q, hq⟩ := hbuilt.refills hg₃.reachable hcarry₁ hsame
  exact ⟨g₃, events, q, h, hq⟩

/-- Two placeholders are refined to one type that reaches neither. All types are carried over, and
both placeholders stand for that type. -/
theorem TreeReachable.exists_refine_both (hg : TreeReachable g) {o o' fill : Handle}
    (ho : g.Live o) (hp : (g.node o).isPlaceholder) (ho' : g.Live o')
    (hp' : (g.node o').isPlaceholder) (hne : o ≠ o') (hfill : fill.index < g.size)
    (hl : g.Live fill) (hno : ¬ g.Reaches fill o) (hno' : ¬ g.Reaches fill o') :
    ∃ g₁ events g₂ events', g.refine o fill = .ok (g₁, events) ∧
      g₁.refine o' fill = .ok (g₂, events') ∧ Reachable g₂ ∧ g.Carries g₂ ∧
      g₂.resolve o = g₂.resolve fill ∧ g₂.resolve o' = g₂.resolve fill := by
  have hreach := hg.reachable
  obtain ⟨g₁, events, h₁, hg₁, hcarry₁, hsame₁⟩ := hg.exists_refine ho hp hfill hl hno
  have hfill₁ : fill.index < g₁.size := hfill.trans_le hcarry₁.size_le
  -- neither the replacement nor the other placeholder reached the first one
  have hkeep := hreach.untouched_refine hfill h₁ hno
  have hkeep' := hreach.untouched_refine hfill h₁ fun hr =>
    hne (hreach.consistent.wellFormed.eq_of_reaches ho' hp' hr).symm
  obtain ⟨g₂, events', h₂, hg₂, hcarry₂, hsame₂⟩ := hg₁.exists_refine (hkeep'.live_iff.2 ho')
    (isPlaceholder_of_shape (Node.shape_of_bare hkeep'.bare_eq) hp') hfill₁ (hkeep.live_iff.2 hl)
    fun hr => hno' (hreach.reaches_of_reaches_refine hfill h₁ hr hno)
  exact ⟨g₁, events, g₂, events', h₁, h₂, hg₂.reachable,
    hcarry₁.trans hcarry₂ hg₁.reachable.consistent.wellFormed,
    (hg₁.reachable.coarsens_refine hfill₁ h₂).resolve_eq hsame₁, hsame₂⟩

/-- Two copies of a template were built with different placeholders. Whatever was made since, they
become one when both placeholders are refined to a type that reaches neither. -/
theorem TreeReachable.refine_copies (hg : TreeReachable g) {o o' fill p' : Handle}
    {g₁ g₂ g₃ : Graph} (ho : g.Live o) (hp : (g.node o).isPlaceholder) (ho' : g.Live o')
    (hp' : (g.node o').isPlaceholder) (hne : o ≠ o') (hbuilt : Built g g o t p g₁)
    (hbuilt' : Built g g₁ o' t p' g₂) (hx : Grows g₂ g₃) (hfill : fill.index < g₃.size)
    (hl : g₃.Live fill) (hno : ¬ g₃.Reaches fill o) (hno' : ¬ g₃.Reaches fill o') :
    ∃ g₄ events g₅ events', g₃.refine o fill = .ok (g₄, events) ∧
      g₄.refine o' fill = .ok (g₅, events') ∧ g₅.resolve p = g₅.resolve p' := by
  have hg₁ := hbuilt.grows.leads.reachable hg.reachable
  have hg₂ := hbuilt'.grows.leads.reachable hg₁
  have hx₃ := (hbuilt.grows.trans hbuilt'.grows).trans hx
  have hg₃ := hx₃.treeReachable hg
  have hwf₃ := hg₃.reachable.consistent.wellFormed
  obtain ⟨ho₃, hp₃⟩ := hx₃.placeholder hg.reachable ho hp
  obtain ⟨ho'₃, hp'₃⟩ := hx₃.placeholder hg.reachable ho' hp'
  obtain ⟨g₄, events, g₅, events', h₄, h₅, hg₅, hcarry, hsame, hsame'⟩ :=
    hg₃.exists_refine_both ho₃ hp₃ ho'₃ hp'₃ hne hfill hl hno hno'
  refine ⟨g₄, events, g₅, events', h₄, h₅, ?_⟩
  -- both are built again to one type
  obtain ⟨q, hq, hqp, -⟩ := hbuilt.refills hg₅
    (((hbuilt'.grows.trans hx).carries hg₁).trans hcarry hwf₃) hsame
  obtain ⟨q', hq', hqp', -⟩ := hbuilt'.refills hg₅ ((hx.carries hg₂).trans hcarry hwf₃) hsame'
  rw [hq] at hq'
  cases hq'
  rw [← hqp, hqp']

/-- **Filling.** In a graph without cycles the refinement of a placeholder fills each template that
was built with it, as if it had been built with the replacement. -/
theorem TreeReachable.fillsDirectly (hg : TreeReachable g) (ht : t.Fits g) :
    g.FillsDirectly t := by
  have hreach := hg.reachable
  have hwf := hreach.consistent.wellFormed
  have hbuild : ∀ {o g'}, g.Live o → (g.node o).isPlaceholder → Reachable g' → Grows g g' →
      ∃ p g'', Built g g' o t p g'' := fun ho hp hg' hx =>
    exists_built ht hreach (WellFormed.lt_of_isAbstract (hwf.isAbstract_of_placeholder ho hp)) hg' hx
  constructor
  · intro o fill ho hp hfill hl hno
    obtain ⟨p, g₁, hbuilt⟩ := hbuild ho hp hreach .refl
    have hext := hbuilt.grows.extends hreach
    have hwf₁ := (hbuilt.grows.leads.reachable hreach).consistent.wellFormed
    obtain ⟨g₂, events, q, h⟩ := hg.refine_built ho hp hbuilt .refl (hext.lt hfill)
      ((hext.untouched hfill).live_iff.2 hl) (by rwa [hext.reaches_iff hwf hwf₁ hfill])
    exact ⟨p, g₁, g₂, events, q, hbuilt.build_eq, h⟩
  · intro o ho hp
    obtain ⟨p, g₁, hbuilt⟩ := hbuild ho hp hreach .refl
    exact ⟨p, g₁, hbuilt.build_eq, hbuilt.grows, hg.refine_built ho hp hbuilt⟩
  · intro o o' ho hp ho' hp' hne
    obtain ⟨p, g₁, hbuilt⟩ := hbuild ho hp hreach .refl
    have hg₁ := hbuilt.grows.leads.reachable hreach
    obtain ⟨p', g₂, hbuilt'⟩ := hbuild ho' hp' hg₁ hbuilt.grows
    exact ⟨p, g₁, p', g₂, hbuilt.build_eq, hbuilt'.build_eq,
      hg.refine_copies ho hp ho' hp' hne hbuilt hbuilt'⟩

/-- A function of a pointer to the hole, a vector of integers and a type that is there. -/
def callback : Template :=
  .node (.function true [.none, .zeroExtended, .none])
    [.leaf .void, .node .pointer [.hole], .node (.vector 4) [.node (.integer 24) []], .leaf ⟨10⟩]

theorem fits_callback (hg : 10 < g.size) : callback.Fits g := by
  have hpointer : Template.Fits g (.node .pointer [.hole]) :=
    .node rfl rfl (fun h => by cases h) (fun h => by cases h) (List.forall_mem_singleton.2 .hole)
  have hinteger : Template.Fits g (.node (.integer 24) []) :=
    .node rfl rfl (fun h => by cases h; decide) (fun h => by cases h) (List.forall_mem_nil _)
  have hvector : Template.Fits g (.node (.vector 4) [.node (.integer 24) []]) :=
    .node rfl rfl (fun h => by cases h) (fun _ => List.forall_mem_singleton.2 rfl)
      (List.forall_mem_singleton.2 hinteger)
  have hvoid : Template.Fits g (.leaf .void) := .leaf (Nat.zero_lt_of_lt hg)
  refine .node rfl (Nat.le_add_left 1 3) (fun h => by cases h) (fun h => by cases h) ?_
  simp only [List.forall_mem_cons]
  exact ⟨hvoid, hpointer, hvector, .leaf hg, List.forall_mem_nil _⟩

set_option maxRecDepth 10000 in
/-- Built with a placeholder, which is then refined to a pointer to another one. There is a pointer to
that pointer already. -/
theorem fillsDirectly_callback : ∃ g₀ g₁ g g' g'' events events' p, initial.play
    [.placeholder, .pointer ⟨9⟩] = some g₀ ∧ g₀.refine ⟨9⟩ .i8 = .ok (g₁, events) ∧
    g₁.play [.placeholder, .placeholder, .pointer ⟨12⟩, .pointer ⟨13⟩] = some g ∧
    TreeReachable g ∧ g.FillsDirectly callback ∧ g.build ⟨11⟩ callback = some (p, g') ∧
    g'.refine ⟨11⟩ ⟨13⟩ = .ok (g'', events') ∧
    g''.build ⟨13⟩ callback = some (g''.resolve p, g'') := by
  have h : ((initial.play [.placeholder, .pointer ⟨9⟩]).bind fun g₀ =>
      (g₀.refine ⟨9⟩ .i8).toOption.bind fun out =>
        (out.1.play [.placeholder, .placeholder, .pointer ⟨12⟩, .pointer ⟨13⟩]).map fun g =>
          ((g₀.size, g₀.node ⟨9⟩, (g₀.node .i8).forward,
            (reachFrom g₀.size g₀.targets (g₀.targets .i8)).contains ⟨9⟩),
          (g.size, g.node ⟨11⟩, (g.node ⟨13⟩).forward,
            (reachFrom g.size g.targets (g.targets ⟨13⟩)).contains ⟨11⟩))) =
      some ((11, ⟨.placeholder, [], true, [⟨10⟩], [], none⟩, none, false),
        (15, .fresh .placeholder [] true, none, false)) := by cbv
  obtain ⟨g₀, hg₀, h⟩ := Option.bind_eq_some_iff.1 h
  obtain ⟨⟨g₁, events⟩, hr, h⟩ := Option.bind_eq_some_iff.1 h
  obtain ⟨g, hg, h⟩ := Option.map_eq_some_iff.1 h
  simp only [Prod.mk.injEq] at h
  obtain ⟨⟨hsize₀, hnode₀, hlive₀, havoid₀⟩, hsize, hnode, hlive, havoid⟩ := h
  have htree₀ : TreeReachable g₀ := (grows_of_play (by simp) hg₀).treeReachable .initial
  have hno₀ : ¬ g₀.Reaches .i8 ⟨9⟩ :=
    not_reaches_of_contains htree₀.reachable.consistent.wellFormed.targetsBounded (by decide) havoid₀
  have hopen₀ : g₀.Live ⟨9⟩ ∧ (g₀.node ⟨9⟩).isPlaceholder := by
    unfold Live
    rw [hnode₀]
    exact ⟨rfl, rfl⟩
  obtain ⟨g₁', events', hr', htree₁, -, -⟩ :=
    htree₀.exists_refine hopen₀.1 hopen₀.2 (by rw [hsize₀]; decide) hlive₀ hno₀
  rw [eq_ok_of_toOption hr] at hr'
  cases hr'
  have htree : TreeReachable g := (grows_of_play (by simp) hg).treeReachable htree₁
  have hfills := htree.fillsDirectly (fits_callback (by rw [hsize]; decide))
  have hopen : g.Live ⟨11⟩ ∧ (g.node ⟨11⟩).isPlaceholder := by
    unfold Live
    rw [hnode]
    exact ⟨rfl, rfl⟩
  obtain ⟨p, g', g'', events', q, hbuild, hrefine, hagain, -, hq⟩ :=
    hfills.direct hopen.1 hopen.2 (by rw [hsize]; decide) hlive
      (not_reaches_of_contains htree.reachable.consistent.wellFormed.targetsBounded (by decide) havoid)
  rw [hq rfl] at hagain
  exact ⟨g₀, g₁, g, g', g'', events, events', p, hg₀, eq_ok_of_toOption hr, hg, htree, hfills,
    hbuild, hrefine, hagain⟩

end Graph

end TypeGraph
