import TypeGraph.Graph.Printing
import TypeGraph.Graph.Unfolding
import TypeGraph.Proofs.Homomorphisms

/-!
# Rendering

A type is rendered with the live types around it on a stack. A component that is on the stack
becomes an up-reference, and any other is pushed while its own components are rendered.

1. The term of a type says of each place what stands there (`StandsFor`): an up-reference counts
   types of the stack, and stands for the last one that it counts. The text of such a term is what
   the type is printed as (`StandsFor.printed`), and there is no other (`Printed.unique`).
2. The stack never holds a type twice, so it is no deeper than the arena is large, and a writer ends
   with the text written (`WellFormed.writeWithin_writes`). Each component leaves the stack as it
   was.
3. The term depends on the graph only through the structure under the type
   (`Renumbers.unfoldUnder_eq`): to give the types other numbers gives the stack other numbers too,
   and leaves its order.
-/

namespace TypeGraph

theorem map_eq_map_iff {α β γ : Type} {f : α → γ} {f' : β → γ} {l : List α} {l' : List β} :
    l.map f = l'.map f' ↔ List.Forall₂ (fun a b => f a = f' b) l l' := by
  rw [← List.forall₂_eq_eq_eq, List.forall₂_map_left_iff, List.forall₂_map_right_iff]

theorem forall₂_of_common {α β γ : Type} {P : α → β → Prop} {Q : α → γ → Prop} {R : β → γ → Prop}
    {as : List α} {bs : List β} {cs : List γ} (hP : List.Forall₂ P as bs)
    (hQ : List.Forall₂ Q as cs) (hR : ∀ a b c, P a b → Q a c → R b c) : List.Forall₂ R bs cs := by
  induction hP generalizing cs with
  | nil =>
    cases hQ
    exact .nil
  | cons hab _ ih =>
    cases hQ with
    | cons hac hrest => exact .cons (hR _ _ _ hab hac) (ih hrest)

/-- A map that tells the members of a list from the one that is looked for keeps its place. -/
theorem idxOf_map {α β : Type} [DecidableEq α] [DecidableEq β] {f : α → β} {l : List α} {a : α}
    (hf : ∀ b ∈ l, f b = f a → b = a) : (l.map f).idxOf (f a) = l.idxOf a := by
  induction l with
  | nil => rfl
  | cons b l ih =>
    obtain ⟨hb, hl⟩ := List.forall_mem_cons.1 hf
    rw [List.map_cons]
    by_cases hba : b = a
    · rw [hba, List.idxOf_cons_self, List.idxOf_cons_self]
    · rw [List.idxOf_cons_ne _ (mt hb hba), List.idxOf_cons_ne _ hba, ih hl]

/-! ## The forms of texts -/

theorem paramTexts_eq_map (attrs : List Attributes) (i : Nat) (ps : List String) :
    paramTexts attrs i ps =
      (ps.zipIdx i).map fun p => p.1 ++ (Attributes.entry attrs p.2).suffix := by
  induction ps generalizing i with
  | nil => rfl
  | cons p ps ih => rw [paramTexts, ih, List.zipIdx_cons, List.map_cons]

/-- The dots behind a list stand behind a comma if the list is not empty. -/
theorem intercalate_dots (varargs : Bool) (items : List String) :
    (", ".intercalate items ++
        if varargs then if items.isEmpty then "..." else ", ..." else "") =
      ", ".intercalate (if varargs then items ++ ["..."] else items) := by
  cases varargs with
  | false => exact String.append_empty
  | true =>
    cases items with
    | nil => rfl
    | cons p ps =>
      rw [if_pos rfl, if_pos rfl, String.intercalate_append_of_ne_nil (List.cons_ne_nil p ps)
        (List.cons_ne_nil _ _), String.intercalate_singleton, String.append_assoc]
      rfl

theorem Shape.Printed.eq_text {s : Shape} {parts : List String} {text : String}
    (h : s.Printed parts text) : text = s.text parts := by
  induction h with
  | function varargs attrs ret params =>
    rw [Shape.text, ← paramTexts_eq_map]
    cases varargs with
    | true => rfl
    | false =>
      simp only [Bool.false_eq_true, if_false, List.append_nil]
      rfl
  | packed h ih => rw [ih]; rfl
  | _ => rfl

/-- A shape over as many texts as it takes is printed as its text. -/
theorem Shape.Takes.printed {s : Shape} {parts : List String} (h : s.Takes parts.length) :
    s.Printed parts (s.text parts) := by
  -- any printed text will do, since there is only the one
  obtain ⟨text, ht⟩ : ∃ text, s.Printed parts text := by
    cases h.over with
    | primitive p => exact ⟨_, .primitive p⟩
    | integer bits => exact ⟨_, .integer bits⟩
    | placeholder => exact ⟨_, .placeholder⟩
    | function varargs attrs ret params => exact ⟨_, .function varargs attrs ret params⟩
    | struct packed =>
      have hbare : ∃ text, (Shape.struct false).Printed parts text := by
        cases parts with
        | nil => exact ⟨_, .unit⟩
        | cons field fields => exact ⟨_, .struct field fields⟩
      cases packed with
      | false => exact hbare
      | true => exact hbare.imp' _ fun _ => .packed
    | array len elem => exact ⟨_, .array len elem⟩
    | vector len elem => exact ⟨_, .vector len elem⟩
    | pointer elem => exact ⟨_, .pointer elem⟩
  exact ht.eq_text ▸ ht

/-! ## Writing the forms -/

namespace Writer

variable {write : Handle → Writer} {stack slots : List Handle} {t : Handle → String}

theorem writes_braced (h : ∀ a ∈ slots, (write a).Writes stack (t a)) :
    (braced write slots).Writes stack (bracedText (slots.map t)) := by
  cases slots with
  | nil => exact (writes_nil write " " stack).between "\x7b" "\x7d"
  | cons a as =>
    have hfields : (each write " " (a :: as)).Writes stack _ :=
      writes_each (List.cons_ne_nil a as) h
    have hbraced := hfields.between "\x7b" " \x7d"
    rwa [← String.append_assoc] at hbraced

theorem writes_listed (varargs : Bool) (attrs : List Attributes)
    (h : ∀ a ∈ slots, (write a).Writes stack (t a)) :
    (listed write varargs attrs slots).Writes stack (", ".intercalate
      (if varargs then paramTexts attrs 1 (slots.map t) ++ ["..."]
        else paramTexts attrs 1 (slots.map t))) := by
  have hempty : (paramTexts attrs 1 (slots.map t)).isEmpty = slots.isEmpty := by
    cases slots <;> rfl
  have heach : (each (fun p => do write p.1; text (Attributes.entry attrs p.2).suffix) ""
      (slots.zipIdx 1)).Writes stack (", ".intercalate (paramTexts attrs 1 (slots.map t))) := by
    rw [paramTexts_eq_map, List.zipIdx_map, List.map_map]
    refine writes_list fun p hp => ?_
    exact (h p.1 (List.fst_mem_of_mem_zipIdx hp)).seq (writes_text stack _)
  rw [← intercalate_dots, hempty]
  exact heach.seq (writes_text stack _)

/-- A shape is written as its text, once its components write theirs. -/
theorem writes_shape {s : Shape} (hs : s.Takes slots.length)
    (h : ∀ a ∈ slots, (write a).Writes stack (t a)) :
    (shape write s slots).Writes stack (s.text (slots.map t)) := by
  cases hs.over with
  | primitive p => exact writes_text stack p.name
  | integer bits => exact writes_text stack _
  | placeholder => exact writes_text stack _
  | function varargs attrs ret params =>
    obtain ⟨hret, hparams⟩ := List.forall_mem_cons.1 h
    rw [List.map_cons, Shape.text]
    simp only [String.append_assoc]
    exact hret.seq ((writes_text stack " (").seq ((writes_listed varargs attrs hparams).seq
      ((writes_text stack ")").seq (writes_text stack _))))
  | struct packed =>
    have hbraced := writes_braced h
    cases packed with
    | true => exact hbraced.between "<" ">"
    | false =>
      have hbare := hbraced.between "" ""
      rwa [String.empty_append, String.append_empty] at hbare
  | array len elem =>
    exact (h elem (List.mem_singleton_self elem)).between ("[" ++ toString len ++ " x ") "]"
  | vector len elem =>
    exact (h elem (List.mem_singleton_self elem)).between ("<" ++ toString len ++ " x ") ">"
  | pointer elem => exact (h elem (List.mem_singleton_self elem)).seq (writes_text stack "*")

end Writer

namespace Graph

/-! ## Definitions -/

/-- Writes the text of a type inside the types of a stack, on fuel for `n` types one inside the
other with `links` forward links for each. -/
def writeWithin (g : Graph) (links : Nat) : Nat → Handle → Writer
  | 0, _ => failure
  | n + 1, h => do
    let r ← g.resolveWithin links h
    let (_, stack) ← get
    if r ∈ stack then
      Writer.text ("\\" ++ toString (stack.idxOf r + 1))
    else
      Writer.inside r (Writer.shape (g.writeWithin links n) (g.node r).shape (g.node r).slots)

/-- The term, inside the types of a stack, stands for the live type of a handle. -/
inductive StandsFor (g : Graph) : List Handle → Term → Handle → Prop where
  /-- An up-reference counts types of the stack, and stands for the last of them. -/
  | up {stack : List Handle} {n : Nat} {h : Handle} (hpos : 1 ≤ n) (hle : n ≤ stack.length)
      (hn : stack[n - 1]? = some (g.resolve h)) : StandsFor g stack (.up n) h
  /-- Any other term stands for a type that is not on the stack, and its parts for the components,
  which are inside the type. -/
  | node {stack : List Handle} {h : Handle} {parts : List Term} (hnew : g.resolve h ∉ stack)
      (hlength : parts.length = (g.node (g.resolve h)).slots.length)
      (hparts : ∀ t s, (t, s) ∈ parts.zip (g.node (g.resolve h)).slots →
        StandsFor g (g.resolve h :: stack) t s) :
      StandsFor g stack (.node (g.node (g.resolve h)).shape parts) h

/-- The map takes the types under one type one by one to those under another, and keeps their
structure. -/
structure Renumbers (g g' : Graph) (f : Handle → Handle) (a b : Handle) : Prop where
  root : f a = b
  injOn : ∀ {x y}, g.Reaches a x → g.Reaches a y → f x = f y → x = y
  shape_eq : ∀ {x}, g.Reaches a x → (g'.node (f x)).shape = (g.node x).shape
  targets_eq : ∀ {x}, g.Reaches a x → g'.targets (f x) = (g.targets x).map f

/-- What rendering a type comes to. -/
structure Renders (g : Graph) (h : Handle) : Prop where
  /-- Fuel enough for all links and all types is enough to write the text, and the stack is empty
  again. -/
  ends : ∀ {links n}, g.size ≤ links → g.size < n → (g.writeWithin links n h).Writes [] (g.text h)
  /-- The text is the one that the type is printed as, with each up-reference in it no more than the
  depth and the number of the type that it stands for. -/
  printed_iff : ∀ {s}, g.Printed [] s h ↔ s = g.text h
  /-- The term stands for the type, and each of its parts for a type that is there. -/
  standsFor : g.StandsFor [] (g.unfolding h) h
  /-- A type of the same structure has the same text. -/
  text_eq : ∀ {g' f h'}, Reachable g' → h'.index < g'.size →
    g.Renumbers g' f (g.resolve h) (g'.resolve h') → g'.text h' = g.text h

variable {g g' : Graph} {f : Handle → Handle} {a b h h' : Handle} {stack slots : List Handle}
  {links n : Nat}

/-! ## The term of a type -/

theorem unfoldUnder_of_mem (hr : g.resolve h ∈ stack) :
    g.unfoldUnder stack h = .up (stack.idxOf (g.resolve h) + 1) := by
  rw [unfoldUnder]
  exact if_pos hr

theorem unfoldUnder_of_not_mem (hr : g.resolve h ∉ stack) (hlt : (g.resolve h).index < g.size) :
    g.unfoldUnder stack h = .node (g.node (g.resolve h)).shape
      ((g.node (g.resolve h)).slots.map (g.unfoldUnder (g.resolve h :: stack))) := by
  rw [unfoldUnder]
  exact (if_neg hr).trans (if_pos hlt)

/-- What holds of the types of a stack, and of a type inside a stack once it holds of its components
inside the type as well, holds of all types. -/
theorem WellFormed.unfold_induction {P : List Handle → Handle → Prop} (hwf : g.WellFormed)
    (up : ∀ {stack h}, g.resolve h ∈ stack → P stack h)
    (node : ∀ {stack h}, g.resolve h ∉ stack → (g.resolve h).index < g.size →
      (∀ s ∈ (g.node (g.resolve h)).slots, P (g.resolve h :: stack) s) → P stack h)
    (stack : List Handle) (h : Handle) (hh : h.index < g.size) : P stack h := by
  -- each type on the way in is one fewer that is not on the stack
  induction hn : (g.handles.filter (· ∉ stack)).length using Nat.strong_induction_on
    generalizing stack h with
  | _ n ih =>
    by_cases hr : g.resolve h ∈ stack
    · exact up hr
    · have hlt := hwf.resolve_lt hh
      refine node hr hlt fun s hs => ih _ ?_ _ s (hwf.slots_lt hs) rfl
      rw [← hn]
      exact length_filter_notMem_cons_lt (mem_handles.2 hlt) hr

/-! ## What stands where -/

theorem WellFormed.standsFor_unfoldUnder (hwf : g.WellFormed) (stack : List Handle) (h : Handle)
    (hh : h.index < g.size) : g.StandsFor stack (g.unfoldUnder stack h) h := by
  refine hwf.unfold_induction (P := fun stack h => g.StandsFor stack (g.unfoldUnder stack h) h)
    (fun {stack h} hr => ?_) (fun {stack h} hr hlt ih => ?_) stack h hh
  · have hlt := List.idxOf_lt_length_of_mem hr
    rw [unfoldUnder_of_mem hr]
    refine .up (Nat.le_add_left 1 _) hlt ?_
    rw [Nat.add_sub_cancel, List.getElem?_eq_getElem hlt, List.getElem_idxOf hlt]
  · have hall : List.Forall₂ (g.StandsFor (g.resolve h :: stack))
        ((g.node (g.resolve h)).slots.map (g.unfoldUnder (g.resolve h :: stack)))
        (g.node (g.resolve h)).slots :=
      List.forall₂_map_left_iff.2 (List.forall₂_same.2 ih)
    obtain ⟨hlength, hparts⟩ := List.forall₂_iff_zip.1 hall
    rw [unfoldUnder_of_not_mem hr hlt]
    exact .node hr hlength fun t s => hparts

/-! ## What is printed -/

theorem StandsFor.printed {t : Term} (hwf : g.WellFormed) (h : g.StandsFor stack t a) :
    g.Printed stack t.text a := by
  induction h with
  | up hpos hle hn =>
    rw [Term.text]
    exact .up hpos hle hn
  | @node stack h parts hnew hlength hparts ih =>
    have htakes := hwf.takes (hwf.live_resolve h)
    have htexts : (parts.map Term.text).length = (g.node (g.resolve h)).slots.length := by
      rw [List.length_map, hlength]
    rw [Term.text, Term.texts_eq_map]
    refine .node hnew htexts (fun p s hm => ?_) (Shape.Takes.printed (htexts ▸ htakes))
    rw [List.zip_map_left] at hm
    obtain ⟨⟨t, s⟩, hts, heq⟩ := List.mem_map.1 hm
    cases heq
    exact ih t s hts

/-- A type is printed in one way if no two of the types around it are the same. -/
theorem Printed.unique {s s' : String} (h : g.Printed stack s a) (h' : g.Printed stack s' a)
    (hstack : stack.Nodup) : s = s' := by
  -- whether a type is on the stack tells which of the two ways it is printed in
  induction h generalizing s' with
  | @up stack n a hpos hle hn =>
    cases h' with
    | @up _ m _ hpos' hle' hn' =>
      have hplace : n - 1 = m - 1 :=
        (List.getElem?_inj (by omega) hstack).1 (hn.trans hn'.symm)
      obtain rfl : n = m := by omega
      rfl
    | node hnew => exact absurd (List.mem_of_getElem? hn) hnew
  | @node stack a parts text hnew hlength hparts htext ih =>
    cases h' with
    | up _ _ hn => exact absurd (List.mem_of_getElem? hn) hnew
    | @node _ _ parts' text' _ hlength' hparts' htext' =>
      have hsame : List.Forall₂ (fun p s => ∀ p', g.Printed (g.resolve a :: stack) p' s → p = p')
          parts (g.node (g.resolve a)).slots :=
        List.forall₂_iff_zip.2 ⟨hlength, fun {p s} hm p' hp' =>
          ih p s hm hp' (List.nodup_cons.2 ⟨hnew, hstack⟩)⟩
      have hparts' : List.Forall₂ (g.Printed (g.resolve a :: stack)) parts'
          (g.node (g.resolve a)).slots :=
        List.forall₂_iff_zip.2 ⟨hlength', fun {p s} => hparts' p s⟩
      have heq : List.Forall₂ (· = ·) parts parts' :=
        forall₂_of_common hsame.flip hparts'.flip fun s p p' hp hp' => hp p' hp'
      obtain rfl := List.forall₂_eq_eq_eq ▸ heq
      rw [htext.eq_text, htext'.eq_text]

/-! ## Writing ends -/

/-- With fuel for the types that are not on the stack, the text of the term is written. -/
theorem WellFormed.writeWithin_writes (hwf : g.WellFormed) (hlinks : g.size ≤ links)
    (hn : (g.handles.filter (· ∉ stack)).length < n) (hh : h.index < g.size) :
    (g.writeWithin links n h).Writes stack (g.unfoldUnder stack h).text := by
  induction n generalizing stack h with
  | zero => exact absurd hn (Nat.not_lt_zero _)
  | succ n ih =>
    intro out
    rw [writeWithin, hwf.forwardsEnd.resolveWithin_eq hlinks]
    show StateT.run (if g.resolve h ∈ stack then _ else _) (out, stack) = _
    by_cases hr : g.resolve h ∈ stack
    · rw [if_pos hr, unfoldUnder_of_mem hr]
      exact Writer.writes_text stack _ out
    · have hlt := hwf.resolve_lt hh
      have hfewer := length_filter_notMem_cons_lt (mem_handles.2 hlt) hr
      have hparts : ∀ s ∈ (g.node (g.resolve h)).slots, (g.writeWithin links n s).Writes
          (g.resolve h :: stack) (g.unfoldUnder (g.resolve h :: stack) s).text :=
        fun s hs => ih (by omega) (hwf.slots_lt hs)
      have hshape := Writer.writes_shape (hwf.takes (hwf.live_resolve h)) hparts
      rw [if_neg hr, unfoldUnder_of_not_mem hr hlt, Term.text, Term.texts_eq_map, List.map_map]
      exact hshape.inside out

/-! ## Other numbers -/

/-- A one-to-one map of the types under one to those under another that keeps their structure keeps
the terms of all of them, inside types that it maps too. -/
theorem Renumbers.unfoldUnder_eq (hf : g.Renumbers g' f a b) (hwf : g.WellFormed)
    (hwf' : g'.WellFormed) (hh : h.index < g.size) (hstack : ∀ x ∈ stack, g.Reaches a x)
    (hr : g.Reaches a (g.resolve h)) (hh' : h'.index < g'.size)
    (heq : g'.resolve h' = f (g.resolve h)) :
    g'.unfoldUnder (stack.map f) h' = g.unfoldUnder stack h := by
  refine hwf.unfold_induction (P := fun stack h => (∀ x ∈ stack, g.Reaches a x) →
      g.Reaches a (g.resolve h) → ∀ h', h'.index < g'.size → g'.resolve h' = f (g.resolve h) →
        g'.unfoldUnder (stack.map f) h' = g.unfoldUnder stack h)
    (fun {stack h} hmem hstack hr h' _ heq => ?_)
    (fun {stack h} hmem hlt ih hstack hr h' hh' heq => ?_) stack h hh hstack hr h' hh' heq
  · have hplace : (stack.map f).idxOf (f (g.resolve h)) = stack.idxOf (g.resolve h) :=
      idxOf_map fun x hx => hf.injOn (hstack x hx) hr
    have hmem' : g'.resolve h' ∈ stack.map f := heq ▸ List.mem_map_of_mem hmem
    rw [unfoldUnder_of_mem hmem, unfoldUnder_of_mem hmem', heq, hplace]
  · have hmem' : g'.resolve h' ∉ stack.map f := by
      rw [heq]
      intro hm
      obtain ⟨x, hx, hxr⟩ := List.mem_map.1 hm
      exact hmem (hf.injOn (hstack x hx) hr hxr ▸ hx)
    have hslots : List.Forall₂ (fun s' s => g'.resolve s' = f (g.resolve s))
        (g'.node (f (g.resolve h))).slots (g.node (g.resolve h)).slots := by
      have htargets := hf.targets_eq hr
      unfold targets at htargets
      rw [List.map_map] at htargets
      exact map_eq_map_iff.1 htargets
    have hlt' := hwf'.resolve_lt hh'
    have hparts : (g'.node (f (g.resolve h))).slots.map
        (g'.unfoldUnder ((g.resolve h :: stack).map f)) =
        (g.node (g.resolve h)).slots.map (g.unfoldUnder (g.resolve h :: stack)) := by
      refine map_eq_map_iff.2 (List.forall₂_iff_zip.2 ⟨hslots.length_eq, fun {s' s} hm => ?_⟩)
      obtain ⟨hs', hs⟩ := List.of_mem_zip hm
      exact ih s hs (List.forall_mem_cons.2 ⟨hr, hstack⟩) (hr.tail (List.mem_map_of_mem hs)) s'
        (hwf'.slots_lt hs') (List.forall₂_zip hslots hm)
    rw [unfoldUnder_of_not_mem hmem hlt, unfoldUnder_of_not_mem hmem' hlt', heq, hf.shape_eq hr,
      ← hparts, List.map_cons]

/-! ## The theorem -/

/-- **Rendering.** In a reachable graph rendering a type ends with its text written. That is what
the type is printed as and nothing else, and so each up-reference in it stands for the type that it
counts. It is the text of every type of the same structure, whatever the numbers of the types are
and however they came to be. -/
theorem Reachable.renders (hg : Reachable g) (hh : h.index < g.size) : g.Renders h where
  ends := by
    intro links n hlinks hn
    refine hg.consistent.wellFormed.writeWithin_writes hlinks (Nat.lt_of_le_of_lt ?_ hn) hh
    refine (List.length_filter_le _ _).trans_eq ?_
    rw [handles, List.length_map, List.length_range]
  printed_iff := by
    intro s
    have hwf := hg.consistent.wellFormed
    have hprinted : g.Printed [] (g.text h) h := (hwf.standsFor_unfoldUnder [] h hh).printed hwf
    exact ⟨fun hs => hs.unique hprinted .nil, fun hs => hs ▸ hprinted⟩
  standsFor := hg.consistent.wellFormed.standsFor_unfoldUnder [] h hh
  text_eq := by
    intro g' f h' hg' hh' hf
    have hterm := hf.unfoldUnder_eq hg.consistent.wellFormed hg'.consistent.wellFormed hh
      (fun x hx => absurd hx List.not_mem_nil) (.refl _) hh' hf.root.symm
    exact congrArg Term.text hterm

set_option maxRecDepth 10000 in
/-- A list type is made in two graphs, the pointer before the structure in one and after it in the
other. A handle of the placeholder in the first and the structure in the second have one text. -/
theorem renders_swapped : ∃ g g', initial.play
    [.placeholder, .pointer ⟨9⟩, .struct [⟨10⟩, .i32] false, .refine ⟨9⟩ ⟨11⟩] = some g ∧
    initial.play
      [.placeholder, .struct [⟨9⟩, .i32] false, .pointer ⟨10⟩, .refine ⟨9⟩ ⟨11⟩] = some g' ∧
    g.Renders ⟨9⟩ ∧ g.Renumbers g' (Equiv.swap ⟨10⟩ ⟨11⟩) (g.resolve ⟨9⟩) (g'.resolve ⟨10⟩) ∧
    g'.text ⟨10⟩ = g.text ⟨9⟩ ∧ g.text ⟨9⟩ = "\x7b \\2*, i32 \x7d" ∧
    g.Printed [] "\x7b \\2*, i32 \x7d" ⟨9⟩ := by
  have h : ((initial.play
      [.placeholder, .pointer ⟨9⟩, .struct [⟨10⟩, .i32] false, .refine ⟨9⟩ ⟨11⟩]).map fun g =>
      (g.size, g.resolve ⟨9⟩, ([⟨11⟩, ⟨10⟩, .i32] : List Handle).map fun h =>
        ((g.node h).shape, g.targets h), g.text ⟨9⟩)) =
      some (12, ⟨11⟩, [(.struct false, [⟨10⟩, .i32]), (.pointer, [⟨11⟩]), (.integer 32, [])],
        "\x7b \\2*, i32 \x7d") := by cbv
  have h' : ((initial.play
      [.placeholder, .struct [⟨9⟩, .i32] false, .pointer ⟨10⟩, .refine ⟨9⟩ ⟨11⟩]).map fun g =>
      (g.size, g.resolve ⟨10⟩, ([⟨10⟩, ⟨11⟩, .i32] : List Handle).map fun h =>
        ((g.node h).shape, g.targets h))) =
      some (12, ⟨10⟩, [(.struct false, [⟨11⟩, .i32]), (.pointer, [⟨10⟩]), (.integer 32, [])]) := by
    cbv
  obtain ⟨g, hg, heq⟩ := Option.map_eq_some_iff.1 h
  obtain ⟨g', hg', heq'⟩ := Option.map_eq_some_iff.1 h'
  simp only [List.map_cons, List.map_nil, Prod.mk.injEq, List.cons.injEq, and_true] at heq heq'
  obtain ⟨hsize, hroot, ⟨⟨hs, ht⟩, ⟨hs', ht'⟩, hs'', ht''⟩, htext⟩ := heq
  obtain ⟨hsize', hroot', ⟨hv, hu⟩, ⟨hv', hu'⟩, hv'', hu''⟩ := heq'
  have hunder : ∀ {x}, g.Reaches ⟨11⟩ x → x = ⟨11⟩ ∨ x = ⟨10⟩ ∨ x = .i32 := by
    refine fun hr => hr.of_closed (P := fun x => x = ⟨11⟩ ∨ x = ⟨10⟩ ∨ x = .i32) ?_ (.inl rfl)
    rintro x (rfl | rfl | rfl)
    · simp [ht]
    · simp [ht']
    · simp [ht'']
  have hf : g.Renumbers g' (Equiv.swap ⟨10⟩ ⟨11⟩) (g.resolve ⟨9⟩) (g'.resolve ⟨10⟩) := by
    rw [hroot, hroot']
    refine ⟨by decide, fun _ _ heq => Equiv.injective _ heq, fun hr => ?_, fun hr => ?_⟩
    · rcases hunder hr with rfl | rfl | rfl
      · exact hv.trans hs.symm
      · exact hv'.trans hs'.symm
      · exact hv''.trans hs''.symm
    · rcases hunder hr with rfl | rfl | rfl
      · rw [ht]; exact hu
      · rw [ht']; exact hu'
      · rw [ht'']; exact hu''
  have hrenders := (Reachable.initial.play hg).renders (h := ⟨9⟩) (by rw [hsize]; decide)
  exact ⟨g, g', hg, hg', hrenders, hf,
    hrenders.text_eq (Reachable.initial.play hg') (by rw [hsize']; decide) hf, htext,
    hrenders.printed_iff.2 htext.symm⟩

end Graph

end TypeGraph
