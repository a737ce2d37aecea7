import TypeGraph.Proofs.Commutation
import TypeGraph.Proofs.Rendering
import TypeGraph.Proofs.TermTexts

/-!
# The text of a type determines the type

Types of one text have one term, which stands for both of them (`Term.Plain.eq_of_text_eq`). Reading
the term from the outside in, two stacks grow together: at each place of the term one type is pushed
on either, and an up-reference names a pair of types that were pushed together. So the pairs that
are pushed together anywhere in the term are a bisimulation (`Paired.step`), though a type
may be pushed at many places.

Scalars are known by their names, since each has its own handle in every graph. Placeholders are
not, and a set of attributes can have bits without a name, so the types are to be concrete and
without attributes.
-/

namespace TypeGraph

/-- The handle of a scalar. -/
def Primitive.handle : Primitive → Handle
  | void => .void
  | float => .float
  | double => .double
  | label => .label

/-- A shape over as many plain terms as it takes is a plain term. -/
theorem Shape.Takes.plain {s : Shape} {parts : List Term} (ht : s.Takes parts.length)
    (hparts : ∀ p ∈ parts, p.Plain) (hs : ∀ varargs attrs, s = .function varargs attrs → attrs = []) :
    (Term.node s parts).Plain := by
  cases ht.over with
  | primitive p => exact .primitive p
  | integer bits => exact .integer bits
  | placeholder => exact .placeholder
  | function varargs attrs ret params =>
    obtain rfl := hs varargs attrs rfl
    obtain ⟨hret, hparams⟩ := List.forall_mem_cons.1 hparts
    exact .function varargs hret hparams
  | struct packed => exact .struct packed hparts
  | array len elem => exact .array len (hparts elem List.mem_cons_self)
  | vector len elem => exact .vector len (hparts elem List.mem_cons_self)
  | pointer elem => exact .pointer (hparts elem List.mem_cons_self)

def Shape.isUnattributed : Shape → Bool
  | function _ attrs => attrs.isEmpty
  | _ => true

/-- What no factory makes is a scalar or a placeholder. -/
theorem Shape.exists_primitive {s : Shape} (hu : s.kind.isUniqued = false) (hs : s ≠ .placeholder) :
    ∃ p, s = .primitive p := by
  cases s with
  | primitive p => exact ⟨p, rfl⟩
  | placeholder => exact absurd rfl hs
  | integer | function | struct | array | vector | pointer => cases hu

namespace Graph

/-! ## Definitions -/

/-- No function under the type has attributes. -/
def Unattributed (g : Graph) (h : Handle) : Prop :=
  ∀ ⦃x varargs attrs⦄, g.Reaches (g.resolve h) x → (g.node x).shape = .function varargs attrs →
    attrs = []

/-- Some types, the live one among them, have components among them only and no attributes. -/
def unattributedAmong (g : Graph) (types : List Handle) (h : Handle) : Bool :=
  types.contains (g.resolve h) && types.all fun x =>
    (g.node x).shape.isUnattributed && (g.targets x).all types.contains

/-- Stacks that grew together, one term standing for both types at each push. -/
inductive Abreast (g g' : Graph) : List Handle → List Handle → Prop where
  | nil : Abreast g g' [] []
  | push {stack stack' : List Handle} {shape : Shape} {parts : List Term} {h h' : Handle}
      (hrest : Abreast g g' stack stack') (hg : g.StandsFor stack (.node shape parts) h)
      (hg' : g'.StandsFor stack' (.node shape parts) h') :
      Abreast g g' (g.resolve h :: stack) (g'.resolve h' :: stack')

/-- Types that are pushed together somewhere. -/
def Paired (g g' : Graph) (a b : Handle) : Prop :=
  ∃ stack stack', Abreast g g' (a :: stack) (b :: stack')

variable {g g' : Graph} {a b h h' x y : Handle} {stack stack' : List Handle} {t : Term}

/-! ## Scalars -/

/-- The scalars stand where their handles say. -/
def ScalarsPlaced (g : Graph) : Prop :=
  ∀ ⦃h p⦄, h.index < g.size → (g.node h).shape = .primitive p → h = p.handle

theorem scalarsPlaced_scalars : scalars.ScalarsPlaced := by
  intro h p hh hs
  have hnode : ∀ q : Primitive, (scalars.node q.handle).shape = .primitive q := by
    intro q
    unfold node scalars
    simp only [Array.getElem?_map]
    cases q <;> rfl
  have hsize : scalars.size = 4 := by simp [scalars, size]
  obtain ⟨q, rfl⟩ : ∃ q : Primitive, h = q.handle := by
    obtain ⟨i⟩ := h
    have hlt : i < 4 := hsize ▸ hh
    have hi : i = 0 ∨ i = 1 ∨ i = 2 ∨ i = 3 := by omega
    rcases hi with rfl | rfl | rfl | rfl
    · exact ⟨.void, rfl⟩
    · exact ⟨.float, rfl⟩
    · exact ⟨.double, rfl⟩
    · exact ⟨.label, rfl⟩
  rw [hnode] at hs
  cases hs
  rfl

/-- A step that keeps the shapes and makes no scalar keeps the places of scalars. -/
theorem ScalarsPlaced.extend (hg : g.ScalarsPlaced)
    (hkeep : ∀ {h}, h ≠ g.next → (g'.node h).shape = (g.node h).shape) (hsize : g'.size ≤ g.size + 1)
    (hnew : ∀ p, (g'.node g.next).shape ≠ .primitive p) : g'.ScalarsPlaced := by
  intro h p hh hs
  have hne : h ≠ g.next := fun heq => hnew p (heq ▸ hs)
  have hlt : h.index < g.size := by
    have hne' : h.index ≠ g.size := fun heq => hne (Handle.eq_of_index_eq heq)
    omega
  exact hg hlt ((hkeep hne).symm.trans hs)

theorem Changes.scalarsPlaced (hx : Changes g g') (hc : g.Consistent []) (hg : g.ScalarsPlaced) :
    g'.ScalarsPlaced := by
  cases hx with
  | @intern key hk =>
    cases hl : g.registry.lookup key with
    | some h =>
      rw [intern_of_lookup_some hl]
      exact hg
    | none =>
      rw [intern_of_lookup_none hk hl]
      refine hg.extend (fun hne => Node.shape_of_bare (bare_grow_of_ne hne)) (size_grow key).le ?_
      intro p hp
      have hu := hk.isUniqued
      have hshape : key.shape = .primitive p := (congrArg Key.shape key_grow_next).symm.trans hp
      rw [Key.kind, hshape] at hu
      cases hu
  | placeholder =>
    rw [placeholder_eq]
    refine hg.extend (fun hne => ?_) size_push.le fun p hp => ?_
    · rw [node_push, if_neg hne]
    · rw [node_push, if_pos rfl] at hp
      cases hp
  | refine hlt hr =>
    obtain ⟨-, hsize, hshape⟩ := hc.refine_induction
      (P := fun g₁ _ => g₁.size = g.size ∧ ∀ h, (g₁.node h).shape = (g.node h).shape) hlt hr
      (fun href => ⟨size_retire .., shape_begin href⟩)
      fun _ hs ha => ⟨ha.size_eq.trans hs.1, fun h => (ha.shape_eq h).trans (hs.2 h)⟩
    intro h p hh hs
    exact hg (hsize ▸ hh) ((hshape h).symm.trans hs)
  | listeners hsize _ hb _ =>
    intro h p hh hs
    exact hg (hsize ▸ hh) ((Node.shape_of_bare (hb h)).symm.trans hs)

theorem Reachable.scalarsPlaced (hg : Reachable g) : g.ScalarsPlaced :=
  hg.change_induction scalarsPlaced_scalars fun hc hs hx => hx.scalarsPlaced hc hs

/-! ## Terms without attributes -/

theorem Unattributed.of_mem_slots (hu : g.Unattributed h)
    (hs : x ∈ (g.node (g.resolve h)).slots) : g.Unattributed x :=
  fun _ _ _ hr hf => hu (.step (List.mem_map_of_mem hs) hr) hf

theorem unattributed_of_among {types : List Handle} (hu : g.unattributedAmong types h = true) :
    g.Unattributed h := by
  unfold unattributedAmong at hu
  simp only [Bool.and_eq_true, List.contains_iff_mem, List.all_eq_true] at hu
  obtain ⟨hroot, hall⟩ := hu
  intro x varargs attrs hr hs
  have hx : x ∈ types := hr.of_closed (P := (· ∈ types)) (fun u hu => (hall u hu).2) hroot
  have hattrs := (hall x hx).1
  rw [hs] at hattrs
  exact List.isEmpty_iff.1 hattrs

theorem WellFormed.plain_unfoldUnder (hwf : g.WellFormed) (hh : h.index < g.size)
    (hu : g.Unattributed h) : (g.unfoldUnder stack h).Plain := by
  refine hwf.unfold_induction (P := fun stack h => g.Unattributed h → (g.unfoldUnder stack h).Plain)
    (fun {stack h} hr _ => ?_) (fun {stack h} hr hlt ih hu => ?_) stack h hh hu
  · rw [unfoldUnder_of_mem hr]
    exact .up _
  · rw [unfoldUnder_of_not_mem hr hlt]
    have htakes := hwf.takes (hwf.live_resolve h)
    rw [← List.length_map (g.unfoldUnder (g.resolve h :: stack))] at htakes
    refine htakes.plain ?_ fun varargs attrs hs => hu (.refl _) hs
    intro t ht
    obtain ⟨s, hs, rfl⟩ := List.mem_map.1 ht
    exact ih s hs (hu.of_mem_slots hs)

/-! ## Stacks that grew together -/

theorem StandsFor.node_eq {shape : Shape} {parts : List Term}
    (h : g.StandsFor stack (.node shape parts) x) :
    shape = (g.node (g.resolve x)).shape ∧
      List.Forall₂ (g.StandsFor (g.resolve x :: stack)) parts (g.node (g.resolve x)).slots := by
  cases h with
  | node hnew hlength hparts =>
    exact ⟨rfl, List.forall₂_iff_zip.2 ⟨hlength, fun {t s} hm => hparts t s hm⟩⟩

theorem Abreast.paired_of_getElem? {i : Nat} (hs : Abreast g g' stack stack')
    (ha : stack[i]? = some a) (hb : stack'[i]? = some b) : Paired g g' a b := by
  induction hs generalizing i with
  | nil => cases ha
  | push hrest h h' ih =>
    cases i with
    | zero =>
      obtain rfl := Option.some.inj ha
      obtain rfl := Option.some.inj hb
      exact ⟨_, _, .push hrest h h'⟩
    | succ i => exact ih ha hb

/-- Types for which one term stands, inside stacks that grew together, are pushed together, here or
where the term counts back to. -/
theorem Abreast.paired_of_standsFor (hs : Abreast g g' stack stack') (h : g.StandsFor stack t x)
    (h' : g'.StandsFor stack' t y) : Paired g g' (g.resolve x) (g'.resolve y) := by
  cases t with
  | up n =>
    cases h with
    | up _ _ hn =>
      cases h' with
      | up _ _ hn' => exact hs.paired_of_getElem? hn hn'
  | node shape parts => exact ⟨stack, stack', .push hs h h'⟩

/-- Types that are pushed together have one shape, and their components are pushed together in
turn. -/
theorem Paired.step (h : Paired g g' a b) : (g.node a).shape = (g'.node b).shape ∧
    List.Forall₂ (fun s t => Paired g g' (g.resolve s) (g'.resolve t)) (g.node a).slots
      (g'.node b).slots := by
  obtain ⟨stack, stack', hs⟩ := h
  cases hs with
  | push hrest h h' =>
    obtain ⟨hshape, hparts⟩ := h.node_eq
    obtain ⟨hshape', hparts'⟩ := h'.node_eq
    exact ⟨hshape.symm.trans hshape',
      forall₂_of_common hparts hparts' fun _ _ _ => (Abreast.push hrest h h').paired_of_standsFor⟩

/-! ## The theorem -/

theorem WellFormed.lt_of_reaches (hwf : g.WellFormed) (hr : g.Reaches a b) (ha : a.index < g.size) :
    b.index < g.size :=
  hr.of_closed (fun u _ v hv => hwf.targetsBounded u v hv) ha

/-- One term for two types, one of them concrete, makes them unfold alike. -/
theorem Reachable.sameUnfolding_of_standsFor (hg : Reachable g) (hg' : Reachable g')
    (hx : x.index < g.size) (hy : y.index < g'.size) (hc : g.isAbstract x = false)
    (h : g.StandsFor [] t x) (h' : g'.StandsFor [] t y) : g.SameUnfolding g' x y := by
  have hwf := hg.consistent.wellFormed
  have hwf' := hg'.consistent.wellFormed
  -- what is not made by a factory is a scalar, since a concrete type reaches no placeholder
  have hscalar : ∀ {a}, g.Reaches (g.resolve x) a → (g.node a).kind.isUniqued = false →
      ∃ p, (g.node a).shape = .primitive p := by
    intro a ha hu
    have hconcrete := hwf.concrete_of_reaches ha hc
    refine Shape.exists_primitive hu fun hs => ?_
    have hp : (g.node a).isPlaceholder := decide_eq_true (congrArg Shape.kind hs)
    rw [hwf.isAbstract_of_placeholder (hwf.live_of_reaches ha (hwf.live_resolve x)) hp] at hconcrete
    cases hconcrete
  refine ⟨fun a b => g.Reaches (g.resolve x) a ∧ g'.Reaches (g'.resolve y) b ∧ Paired g g' a b, ?_,
    .refl _, .refl _, Abreast.nil.paired_of_standsFor h h'⟩
  rintro a b ⟨ha, hb, hpaired⟩
  obtain ⟨hshape, hslots⟩ := hpaired.step
  refine ⟨hshape, fun hu => ?_, ?_⟩
  · obtain ⟨p, hp⟩ := hscalar ha hu
    rw [hg.scalarsPlaced (hwf.lt_of_reaches ha (hwf.resolve_lt hx)) hp,
      hg'.scalarsPlaced (hwf'.lt_of_reaches hb (hwf'.resolve_lt hy)) (hshape.symm.trans hp)]
  · obtain ⟨hlength, hpairs⟩ := List.forall₂_iff_zip.1 hslots
    refine List.forall₂_iff_zip.2 ⟨hlength, fun {s s'} hm => ?_⟩
    obtain ⟨hs, hs'⟩ := List.of_mem_zip hm
    exact ⟨ha.tail (List.mem_map_of_mem hs), hb.tail (List.mem_map_of_mem hs'), hpairs hm⟩

/-- **The text determines the type.** Types that have one text unfold alike, if one of them is
concrete and there are no attributes under either. -/
theorem Reachable.sameUnfolding_of_text_eq (hg : Reachable g) (hg' : Reachable g')
    (hx : x.index < g.size) (hy : y.index < g'.size) (hc : g.isAbstract x = false)
    (hux : g.Unattributed x) (huy : g'.Unattributed y) (htext : g.text x = g'.text y) :
    g.SameUnfolding g' x y := by
  have hwf := hg.consistent.wellFormed
  have hwf' := hg'.consistent.wellFormed
  have hterm : g.unfolding x = g'.unfolding y :=
    (hwf.plain_unfoldUnder hx hux).eq_of_text_eq (hwf'.plain_unfoldUnder hy huy) htext
  have hstands : g'.StandsFor [] (g.unfolding x) y := by
    rw [hterm]
    exact hwf'.standsFor_unfoldUnder [] y hy
  exact hg.sameUnfolding_of_standsFor hg' hx hy hc (hwf.standsFor_unfoldUnder [] x hx) hstands

set_option maxRecDepth 10000 in
/-- A packed structure that holds a pointer to itself and a callback that takes such a pointer, made
in two graphs under different numbers. It has one text, and unfolds alike. -/
theorem sameUnfolding_callback : ∃ g g', initial.play
    [.placeholder, .pointer ⟨9⟩, .function .void [⟨10⟩] true [], .pointer ⟨11⟩,
      .struct [⟨10⟩, ⟨12⟩] true, .refine ⟨9⟩ ⟨13⟩] = some g ∧
    initial.play
      [.integer 5, .placeholder, .pointer ⟨10⟩, .function .void [⟨11⟩] true [], .pointer ⟨12⟩,
        .struct [⟨11⟩, ⟨13⟩] true, .refine ⟨10⟩ ⟨14⟩] = some g' ∧
    g.text ⟨9⟩ = "<\x7b \\2*, void (\\4*, ...)* \x7d>" ∧ g.text ⟨9⟩ = g'.text ⟨14⟩ ∧
    g.SameUnfolding g' ⟨9⟩ ⟨14⟩ := by
  have h : ((initial.play
      [.placeholder, .pointer ⟨9⟩, .function .void [⟨10⟩] true [], .pointer ⟨11⟩,
        .struct [⟨10⟩, ⟨12⟩] true, .refine ⟨9⟩ ⟨13⟩]).map fun g =>
      (g.size, g.isAbstract ⟨9⟩, g.unattributedAmong [⟨13⟩, ⟨12⟩, ⟨11⟩, ⟨10⟩, .void] ⟨9⟩, g.text ⟨9⟩)) =
      some (14, false, true, "<\x7b \\2*, void (\\4*, ...)* \x7d>") := by cbv
  have h' : ((initial.play
      [.integer 5, .placeholder, .pointer ⟨10⟩, .function .void [⟨11⟩] true [], .pointer ⟨12⟩,
        .struct [⟨11⟩, ⟨13⟩] true, .refine ⟨10⟩ ⟨14⟩]).map fun g =>
      (g.size, g.unattributedAmong [⟨14⟩, ⟨13⟩, ⟨12⟩, ⟨11⟩, .void] ⟨14⟩, g.text ⟨14⟩)) =
      some (15, true, "<\x7b \\2*, void (\\4*, ...)* \x7d>") := by cbv
  obtain ⟨g, hg, heq⟩ := Option.map_eq_some_iff.1 h
  obtain ⟨g', hg', heq'⟩ := Option.map_eq_some_iff.1 h'
  simp only [Prod.mk.injEq] at heq heq'
  obtain ⟨hsize, hconcrete, hu, htext⟩ := heq
  obtain ⟨hsize', hu', htext'⟩ := heq'
  have hsame := htext.trans htext'.symm
  refine ⟨g, g', hg, hg', htext, hsame, ?_⟩
  exact (Reachable.initial.play hg).sameUnfolding_of_text_eq (Reachable.initial.play hg')
    (by rw [hsize]; decide) (by rw [hsize']; decide) hconcrete (unattributed_of_among hu)
    (unattributed_of_among hu') hsame

end Graph

end TypeGraph
