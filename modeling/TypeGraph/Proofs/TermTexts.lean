import Mathlib.Data.List.Induction
import TypeGraph.Term

/-!
# The text of a term determines the term

Read forward, the text of a type does not say where it ends: `*` or a list of parameters may follow.
Read backward it does. The last character tells the kind of the term up to a few cases, and what
comes before is as long as the term makes it. So no text is a proper ending of another
(`Term.Plain.cancels`), and a text has one term (`Term.Plain.eq_of_text_eq`).

This holds of plain terms, which have the parts that their shapes call for and no attributes. A set
of attributes can have bits that no text shows.
-/

namespace TypeGraph

variable {t u elem ret : Term} {fields params : List Term} {l l' s cs : List Char} {c c' : Char}

/-- Endings of one length are taken off. -/
theorem append_inj_end {α : Type} {l l' a a' b b' : List α} (h : l ++ (a ++ b) = l' ++ (a' ++ b'))
    (hlen : b.length = b'.length) : l ++ a = l' ++ a' ∧ b = b' :=
  List.append_inj' (by rwa [List.append_assoc, List.append_assoc]) hlen

theorem eq_of_append_eq {α : Type} {l l' a b b' : List α} (h : l ++ b = l' ++ (a ++ b'))
    (hlen : b.length = b'.length) : b = b' :=
  (append_inj_end (a := []) h hlen).2

/-! ## Numerals -/

def digits (n : Nat) : List Char := Nat.toDigits 10 n

theorem toList_toString (n : Nat) : (toString n).toList = digits n := by
  rw [Nat.toString_eq_ofList_toDigits, String.toList_ofList, digits]

theorem isDigit_of_mem_digits {n : Nat} (hc : c ∈ digits n) : c.isDigit :=
  Nat.isDigit_of_mem_toDigits (by decide) (by decide) hc

theorem digits_inj {n m : Nat} (h : digits n = digits m) : n = m := by
  unfold digits at h
  rw [← Nat.ofDigitChars_ten_toDigits (n := n), h, Nat.ofDigitChars_ten_toDigits]

/-- What follows the last character that is no digit is a numeral. -/
theorem digits_cancel {n m : Nat} (hc : c.isDigit = false) (hc' : c'.isDigit = false)
    (h : l ++ c :: digits n = l' ++ c' :: digits m) : l = l' ∧ c = c' ∧ n = m := by
  have hno : ∀ {a : List Char} {c c' : Char} {n m : Nat}, c'.isDigit = false →
      c :: digits n = a ++ c' :: digits m → a = [] := by
    intro a c c' n m hc' heq
    cases a with
    | nil => rfl
    | cons x a =>
      obtain ⟨-, heq⟩ := List.cons.inj heq
      have hmem : c' ∈ digits n := heq ▸ List.mem_append_right a List.mem_cons_self
      rw [isDigit_of_mem_digits hmem] at hc'
      cases hc'
  rcases List.append_eq_append_iff.1 h with ⟨a, hl, heq⟩ | ⟨a, hl, heq⟩
  · obtain rfl := hno hc' heq
    obtain ⟨rfl, hd⟩ := List.cons.inj heq
    exact ⟨by rw [hl, List.append_nil], rfl, digits_inj hd⟩
  · obtain rfl := hno hc heq
    obtain ⟨rfl, hd⟩ := List.cons.inj heq
    exact ⟨by rw [hl, List.append_nil], rfl, digits_inj hd.symm⟩

theorem exists_digits_concat (n : Nat) : ∃ ds c, digits n = ds ++ [c] ∧ c.isDigit = true := by
  have hne : digits n ≠ [] := Nat.toDigits_ne_nil
  exact ⟨_, _, (List.dropLast_concat_getLast hne).symm,
    isDigit_of_mem_digits (List.getLast_mem hne)⟩

/-! ## Texts as lists of characters -/

/-- The last character of the name. -/
def Primitive.lastChar : Primitive → Char
  | void => 'd'
  | float => 't'
  | double => 'e'
  | label => 'l'

namespace Term

def chars (t : Term) : List Char := t.text.toList

/-- The parts are those that the shapes call for, and there are no attributes. -/
inductive Plain : Term → Prop where
  | up (n : Nat) : Plain (.up n)
  | primitive (p : Primitive) : Plain (.node (.primitive p) [])
  | integer (bits : UInt32) : Plain (.node (.integer bits) [])
  | function {ret : Term} {params : List Term} (varargs : Bool) (hret : Plain ret)
      (hparams : ∀ p ∈ params, Plain p) : Plain (.node (.function varargs []) (ret :: params))
  | struct {fields : List Term} (packed : Bool) (hfields : ∀ p ∈ fields, Plain p) :
      Plain (.node (.struct packed) fields)
  | array {elem : Term} (len : UInt64) (helem : Plain elem) : Plain (.node (.array len) [elem])
  | vector {elem : Term} (len : UInt32) (helem : Plain elem) : Plain (.node (.vector len) [elem])
  | pointer {elem : Term} (helem : Plain elem) : Plain (.node .pointer [elem])
  | placeholder : Plain (.node .placeholder [])

/-- A parameter, or the dots that stand for more of them. -/
def itemChars : Option Term → List Char
  | some t => t.chars
  | none => ['.', '.', '.']

theorem itemChars_none : itemChars none = ['.', '.'] ++ ['.'] := rfl

/-- Items with commas between them. -/
def listed (items : List (Option Term)) : List Char := [',', ' '].intercalate (items.map itemChars)

/-- A length and a type behind an opening bracket. -/
def counted (bracket : Char) (len : Nat) (t : Term) : List Char :=
  bracket :: digits len ++ [' ', 'x', ' '] ++ t.chars

/-- What a function lists: its parameters, and the dots if there can be more. -/
def items (params : List Term) (varargs : Bool) : List (Option Term) :=
  params.map some ++ if varargs then [none] else []

theorem paramTexts_nil (i : Nat) (ps : List String) : paramTexts [] i ps = ps := by
  induction ps generalizing i with
  | nil => rfl
  | cons p ps ih =>
    have hempty : (Attributes.entry [] i).suffix = "" := rfl
    rw [paramTexts, ih, hempty, String.append_empty]

theorem chars_up (n : Nat) : (up n).chars = '\\' :: digits n := by
  rw [chars, text, String.toList_append, toList_toString]
  rfl

theorem chars_integer (bits : UInt32) :
    (node (.integer bits) []).chars = 'i' :: digits bits.toNat := by
  rw [chars, text, Shape.text, String.toList_append]
  exact congrArg ('i' :: ·) (toList_toString bits.toNat)

theorem chars_pointer : (node .pointer [t]).chars = t.chars ++ ['*'] := by
  rw [chars, text, Shape.text, String.toList_append]
  rfl

theorem chars_array (len : UInt64) :
    (node (.array len) [t]).chars = counted '[' len.toNat t ++ [']'] := by
  rw [chars, text, Shape.text]
  simp only [String.toList_append]
  rw [show (toString len).toList = digits len.toNat from toList_toString len.toNat]
  rfl

theorem chars_vector (len : UInt32) :
    (node (.vector len) [t]).chars = counted '<' len.toNat t ++ ['>'] := by
  rw [chars, text, Shape.text]
  simp only [String.toList_append]
  rw [show (toString len).toList = digits len.toNat from toList_toString len.toNat]
  rfl

theorem chars_placeholder : (node .placeholder []).chars = ['o', 'p', 'a', 'q', 'u'] ++ ['e'] := rfl

theorem chars_struct_nil : (node (.struct false) []).chars = ['{', '}'] := rfl

theorem listed_items (varargs : Bool) : listed (items params varargs) =
    (", ".intercalate (if varargs then params.map text ++ ["..."] else params.map text)).toList := by
  rw [listed, items, String.toList_intercalate]
  cases varargs <;> simp [Function.comp_def, itemChars, chars]

theorem chars_struct (hne : fields ≠ []) : (node (.struct false) fields).chars =
    ['{', ' '] ++ listed (items fields false) ++ [' ', '}'] := by
  rw [chars, text, Shape.text, if_neg Bool.false_ne_true, texts_eq_map, listed_items,
    if_neg Bool.false_ne_true]
  cases fields with
  | nil => exact absurd rfl hne
  | cons f fs =>
    show ("\x7b " ++ ", ".intercalate ((f :: fs).map text) ++ " \x7d").toList = _
    rw [String.toList_append, String.toList_append]
    rfl

theorem chars_packed : (node (.struct true) fields).chars =
    '<' :: (node (.struct false) fields).chars ++ ['>'] := by
  unfold chars
  rw [text, text, Shape.text, Shape.text, if_pos rfl, if_neg Bool.false_ne_true,
    String.toList_append, String.toList_append]
  rfl

theorem chars_function (varargs : Bool) : (node (.function varargs []) (ret :: params)).chars =
    ret.chars ++ ([' ', '('] ++ listed (items params varargs)) ++ [')'] := by
  have hsuffix : (Attributes.entry [] 0).suffix = "" := rfl
  rw [listed_items, chars, text, texts, texts_eq_map, Shape.text, hsuffix, String.append_empty,
    List.drop_one, List.tail_cons, List.headD_cons, paramTexts_nil]
  simp only [String.toList_append, List.append_assoc]
  rfl

/-! ## The last character -/

/-- The term is of a kind whose texts end in the character. -/
def endsIn : Term → Char → Bool
  | up _, c => c.isDigit
  | node (.primitive p) _, c => c == p.lastChar
  | node (.integer _) _, c => c.isDigit
  | node (.function _ _) _, c => c == ')'
  | node (.struct packed) _, c => c == if packed then '>' else '}'
  | node (.array _) _, c => c == ']'
  | node (.vector _) _, c => c == '>'
  | node .pointer _, c => c == '*'
  | node .placeholder _, c => c == 'e'

theorem exists_chars_primitive (p : Primitive) :
    ∃ cs, (node (.primitive p) []).chars = cs ++ [p.lastChar] := by
  cases p with
  | void => exact ⟨['v', 'o', 'i'], rfl⟩
  | float => exact ⟨['f', 'l', 'o', 'a'], rfl⟩
  | double => exact ⟨['d', 'o', 'u', 'b', 'l'], rfl⟩
  | label => exact ⟨['l', 'a', 'b', 'e'], rfl⟩

theorem Plain.exists_chars_concat (ht : t.Plain) :
    ∃ cs c, t.chars = cs ++ [c] ∧ t.endsIn c = true := by
  cases ht with
  | up n =>
    obtain ⟨ds, c, hds, hc⟩ := exists_digits_concat n
    exact ⟨'\\' :: ds, c, by rw [chars_up, hds, List.cons_append], hc⟩
  | primitive p =>
    obtain ⟨cs, hcs⟩ := exists_chars_primitive p
    exact ⟨cs, p.lastChar, hcs, beq_self_eq_true p.lastChar⟩
  | integer bits =>
    obtain ⟨ds, c, hds, hc⟩ := exists_digits_concat bits.toNat
    exact ⟨'i' :: ds, c, by rw [chars_integer, hds, List.cons_append], hc⟩
  | function varargs => exact ⟨_, _, chars_function varargs, rfl⟩
  | @struct fields packed =>
    cases packed with
    | true => exact ⟨_, _, chars_packed, rfl⟩
    | false =>
      by_cases hne : fields = []
      · exact ⟨['{'], '}', hne ▸ chars_struct_nil, rfl⟩
      · exact ⟨_, '}', (chars_struct hne).trans (List.append_assoc _ [' '] ['}']).symm, rfl⟩
  | array len => exact ⟨_, _, chars_array len, rfl⟩
  | vector len => exact ⟨_, _, chars_vector len, rfl⟩
  | pointer => exact ⟨_, _, chars_pointer, rfl⟩
  | placeholder => exact ⟨_, _, chars_placeholder, rfl⟩

theorem Plain.endsIn_of_concat (hu : u.Plain) (h : l ++ [c] = l' ++ u.chars) :
    u.endsIn c = true := by
  obtain ⟨cs, c', hcs, hc'⟩ := hu.exists_chars_concat
  rw [hcs] at h
  exact List.singleton_inj.1 (eq_of_append_eq h rfl) ▸ hc'

theorem Plain.endsIn_of_append (hu : u.Plain) (hs : s = cs ++ [c]) (h : l ++ s = l' ++ u.chars) :
    u.endsIn c = true := by
  rw [hs, ← List.append_assoc] at h
  exact hu.endsIn_of_concat h

/-- No term ends in the dots, or as the opening of a list does. -/
theorem endsIn_eq_false (hc : c ∈ [' ', '(', '.']) (t : Term) : t.endsIn c = false := by
  have hc : c = ' ' ∨ c = '(' ∨ c = '.' := by simpa using hc
  cases t with
  | up => rcases hc with rfl | rfl | rfl <;> rfl
  | node shape =>
    cases shape with
    | primitive p => rcases hc with rfl | rfl | rfl <;> cases p <;> rfl
    | struct packed => rcases hc with rfl | rfl | rfl <;> cases packed <;> rfl
    | _ => rcases hc with rfl | rfl | rfl <;> rfl

theorem Plain.eq_of_endsIn_digit (hu : u.Plain) (hc : c.isDigit = true) (h : u.endsIn c = true) :
    (∃ n, u = .up n) ∨ ∃ bits, u = .node (.integer bits) [] := by
  cases hu with
  | up n => exact .inl ⟨n, rfl⟩
  | integer bits => exact .inr ⟨bits, rfl⟩
  | primitive p =>
    cases p <;> obtain rfl := eq_of_beq h <;> exact absurd hc (by decide)
  | struct packed =>
    obtain rfl := eq_of_beq h
    cases packed <;> exact absurd hc (by decide)
  | _ => obtain rfl := eq_of_beq h; exact absurd hc (by decide)

/-- Of the names, only that of the double ends as another text does. -/
theorem Plain.eq_name (p : Primitive) (hu : u.Plain) (h : u.endsIn p.lastChar = true) :
    u = .node (.primitive p) [] ∨ p = .double ∧ u = .node .placeholder [] := by
  cases hu with
  | primitive q => cases p <;> cases q <;> first | exact .inl rfl | cases h
  | placeholder => cases p <;> first | exact .inr ⟨rfl, rfl⟩ | cases h
  | struct packed => cases p <;> cases packed <;> cases h
  | _ => cases p <;> cases h

theorem Plain.eq_function (hu : u.Plain) (h : u.endsIn ')' = true) : ∃ varargs ret params,
    ret.Plain ∧ (∀ p ∈ params, p.Plain) ∧ u = .node (.function varargs []) (ret :: params) := by
  cases hu with
  | function varargs hret hparams => exact ⟨varargs, _, _, hret, hparams, rfl⟩
  | primitive p => cases p <;> cases h
  | struct packed => cases packed <;> cases h
  | _ => cases h

theorem Plain.eq_struct (hu : u.Plain) (h : u.endsIn '}' = true) : ∃ fields,
    (∀ p ∈ fields, p.Plain) ∧ u = .node (.struct false) fields := by
  cases hu with
  | struct packed hfields =>
    cases packed with
    | true => cases h
    | false => exact ⟨_, hfields, rfl⟩
  | primitive p => cases p <;> cases h
  | _ => cases h

theorem Plain.eq_packed_or_vector (hu : u.Plain) (h : u.endsIn '>' = true) :
    (∃ fields, (node (.struct false) fields).Plain ∧ u = .node (.struct true) fields) ∨
      ∃ len elem, elem.Plain ∧ u = .node (.vector len) [elem] := by
  cases hu with
  | struct packed hfields =>
    cases packed with
    | true => exact .inl ⟨_, .struct false hfields, rfl⟩
    | false => cases h
  | vector len helem => exact .inr ⟨len, _, helem, rfl⟩
  | primitive p => cases p <;> cases h
  | _ => cases h

theorem Plain.eq_array (hu : u.Plain) (h : u.endsIn ']' = true) :
    ∃ len elem, elem.Plain ∧ u = .node (.array len) [elem] := by
  cases hu with
  | array len helem => exact ⟨len, _, helem, rfl⟩
  | primitive p => cases p <;> cases h
  | struct packed => cases packed <;> cases h
  | _ => cases h

theorem Plain.eq_pointer (hu : u.Plain) (h : u.endsIn '*' = true) :
    ∃ elem, elem.Plain ∧ u = .node .pointer [elem] := by
  cases hu with
  | pointer helem => exact ⟨_, helem, rfl⟩
  | primitive p => cases p <;> cases h
  | struct packed => cases packed <;> cases h
  | _ => cases h

/-! ## One text is no ending of another -/

/-- Texts that end alike, one of them in the text of the term, have the same last term. -/
def Cancels (t : Term) : Prop :=
  ∀ ⦃u : Term⦄ ⦃l l' : List Char⦄, u.Plain → l ++ t.chars = l' ++ u.chars → l = l' ∧ t = u

theorem cancels_up (n : Nat) : (up n).Cancels := by
  intro u l l' hu h
  obtain ⟨ds, c, hds, hc⟩ := exists_digits_concat n
  have hchars : (up n).chars = '\\' :: ds ++ [c] := by rw [chars_up, hds, List.cons_append]
  have hend := hu.endsIn_of_append hchars h
  rcases hu.eq_of_endsIn_digit hc hend with ⟨m, rfl⟩ | ⟨bits, rfl⟩
  · rw [chars_up, chars_up] at h
    obtain ⟨hl, -, rfl⟩ := digits_cancel rfl rfl h
    exact ⟨hl, rfl⟩
  · rw [chars_up, chars_integer] at h
    obtain ⟨-, hne, -⟩ := digits_cancel rfl rfl h
    cases hne

theorem cancels_integer (bits : UInt32) : (node (.integer bits) []).Cancels := by
  intro u l l' hu h
  obtain ⟨ds, c, hds, hc⟩ := exists_digits_concat bits.toNat
  have hchars : (node (.integer bits) []).chars = 'i' :: ds ++ [c] := by
    rw [chars_integer, hds, List.cons_append]
  have hend := hu.endsIn_of_append hchars h
  rcases hu.eq_of_endsIn_digit hc hend with ⟨m, rfl⟩ | ⟨bits', rfl⟩
  · rw [chars_up, chars_integer] at h
    obtain ⟨-, hne, -⟩ := digits_cancel rfl rfl h
    cases hne
  · rw [chars_integer, chars_integer] at h
    obtain ⟨hl, -, heq⟩ := digits_cancel rfl rfl h
    exact ⟨hl, by rw [UInt32.toNat_inj.1 heq]⟩

theorem cancels_primitive (p : Primitive) : (node (.primitive p) []).Cancels := by
  intro u l l' hu h
  obtain ⟨cs, hcs⟩ := exists_chars_primitive p
  rcases hu.eq_name p (hu.endsIn_of_append hcs h) with rfl | ⟨rfl, rfl⟩
  · exact ⟨List.append_cancel_right h, rfl⟩
  · obtain ⟨-, hne⟩ := List.append_inj' h rfl
    exact absurd hne (by decide)

theorem cancels_placeholder : (node .placeholder []).Cancels := by
  intro u l l' hu h
  rcases hu.eq_name .double (hu.endsIn_of_append chars_placeholder h) with rfl | ⟨-, rfl⟩
  · obtain ⟨-, hne⟩ := List.append_inj' h rfl
    exact absurd hne (by decide)
  · exact ⟨List.append_cancel_right h, rfl⟩

theorem Cancels.pointer (ht : t.Cancels) : (node .pointer [t]).Cancels := by
  intro u l l' hu h
  obtain ⟨elem, helem, rfl⟩ := hu.eq_pointer (hu.endsIn_of_append chars_pointer h)
  rw [chars_pointer, chars_pointer] at h
  obtain ⟨hl, rfl⟩ := ht helem (append_inj_end h rfl).1
  exact ⟨hl, rfl⟩

theorem Cancels.counted {b b' : Char} {n m : Nat} (ht : t.Cancels) (hu : u.Plain)
    (hb : b.isDigit = false) (hb' : b'.isDigit = false)
    (h : l ++ Term.counted b n t = l' ++ Term.counted b' m u) : l = l' ∧ n = m ∧ t = u := by
  rw [Term.counted, Term.counted, ← List.append_assoc l, ← List.append_assoc l'] at h
  obtain ⟨hsized, rfl⟩ := ht hu h
  obtain ⟨hl, -, rfl⟩ := digits_cancel hb hb' (append_inj_end hsized rfl).1
  exact ⟨hl, rfl, rfl⟩

theorem Cancels.array (len : UInt64) (ht : t.Cancels) : (node (.array len) [t]).Cancels := by
  intro u l l' hu h
  obtain ⟨len', elem, helem, rfl⟩ := hu.eq_array (hu.endsIn_of_append (chars_array len) h)
  rw [chars_array, chars_array] at h
  obtain ⟨hl, hlen, rfl⟩ := ht.counted helem rfl rfl (append_inj_end h rfl).1
  exact ⟨hl, by rw [UInt64.toNat_inj.1 hlen]⟩

/-- Before the element of a vector stands a length, and before a packed structure its bracket. -/
theorem length_ne_bracket {cs : List Char} : l ++ (cs ++ [' ', 'x', ' ']) ≠ l' ++ ['<'] := by
  rw [← List.append_assoc]
  intro h
  have heq : ['<'] = [' '] := eq_of_append_eq (a := [' ', 'x']) h.symm rfl
  cases heq

theorem Cancels.vector (len : UInt32) (ht : t.Cancels) : (node (.vector len) [t]).Cancels := by
  intro u l l' hu h
  rcases hu.eq_packed_or_vector (hu.endsIn_of_append (chars_vector len) h) with
    ⟨fields, hfields, rfl⟩ | ⟨len', elem, helem, rfl⟩
  · rw [chars_vector, chars_packed] at h
    obtain ⟨h, -⟩ := append_inj_end h rfl
    rw [Term.counted, ← List.append_assoc l, List.append_cons l'] at h
    exact absurd (ht hfields h).1 length_ne_bracket
  · rw [chars_vector, chars_vector] at h
    obtain ⟨hl, hlen, rfl⟩ := ht.counted helem rfl rfl (append_inj_end h rfl).1
    exact ⟨hl, by rw [UInt32.toNat_inj.1 hlen]⟩

/-! ## Lists of items -/

theorem concat_ne_item {i : Option Term} (hi : ∀ t ∈ i, t.Plain) (hc : c ∈ [' ', '(']) :
    l ++ [c] ≠ l' ++ itemChars i := by
  intro h
  cases i with
  | none =>
    have heq : [c] = ['.'] := eq_of_append_eq (a := ['.', '.']) h rfl
    rw [List.singleton_inj.1 heq] at hc
    exact absurd hc (by decide)
  | some t =>
    have hend := (hi t rfl).endsIn_of_concat h
    rw [endsIn_eq_false (List.mem_append_left ['.'] hc)] at hend
    cases hend

theorem item_cancel {i j : Option Term} (hi : ∀ t ∈ i, t.Plain ∧ t.Cancels)
    (hj : ∀ u ∈ j, u.Plain) (h : l ++ itemChars i = l' ++ itemChars j) : l = l' ∧ i = j := by
  cases i with
  | none =>
    cases j with
    | none => exact ⟨List.append_cancel_right h, rfl⟩
    | some u =>
      have hend := (hj u rfl).endsIn_of_append itemChars_none h
      rw [endsIn_eq_false (by decide)] at hend
      cases hend
  | some t =>
    obtain ⟨ht, hcancels⟩ := hi t rfl
    cases j with
    | none =>
      have hend := ht.endsIn_of_append itemChars_none h.symm
      rw [endsIn_eq_false (by decide)] at hend
      cases hend
    | some u =>
      obtain ⟨hl, rfl⟩ := hcancels (hj u rfl) h
      exact ⟨hl, rfl⟩

theorem listed_singleton (i : Option Term) : listed [i] = itemChars i := List.intercalate_singleton

theorem listed_cons_cons (i j : Option Term) (is : List (Option Term)) :
    listed (i :: j :: is) = itemChars i ++ [',', ' '] ++ listed (j :: is) :=
  List.intercalate_cons_cons

/-- What stands before one more item: the opening of the list, or other items and a comma. -/
def led (o c : Char) : List (Option Term) → List Char
  | [] => [o, c]
  | is => [o, c] ++ listed is ++ [',', ' ']

theorem led_of_ne_nil {is : List (Option Term)} {o : Char} (hne : is ≠ []) :
    led o c is = [o, c] ++ listed is ++ [',', ' '] := by
  cases is with
  | nil => exact absurd rfl hne
  | cons i is => rfl

theorem listed_concat_of_ne_nil {is : List (Option Term)} (hne : is ≠ []) (i : Option Term) :
    listed (is ++ [i]) = listed is ++ [',', ' '] ++ itemChars i := by
  induction is with
  | nil => exact absurd rfl hne
  | cons j is ih =>
    cases is with
    | nil => rw [List.singleton_append, listed_cons_cons, listed_singleton, listed_singleton]
    | cons k is =>
      have hrest := ih (List.cons_ne_nil k is)
      rw [List.cons_append] at hrest
      rw [List.cons_append, List.cons_append, listed_cons_cons, listed_cons_cons, hrest]
      simp only [List.append_assoc]

theorem listed_concat (is : List (Option Term)) (o c : Char) (i : Option Term) :
    [o, c] ++ listed (is ++ [i]) = led o c is ++ itemChars i := by
  rcases eq_or_ne is [] with rfl | hne
  · exact congrArg ([o, c] ++ ·) (listed_singleton i)
  · rw [listed_concat_of_ne_nil hne, led_of_ne_nil hne]
    simp only [List.append_assoc]

/-- Two items are the first of their lists, or neither is, since no list opens with a comma. -/
theorem led_cancel {is js : List (Option Term)} {o : Char} (ho : o ≠ ',')
    (hlisted : l ++ ([o, c] ++ listed is) = l' ++ ([o, c] ++ listed js) → l = l' ∧ is = js)
    (h : l ++ led o c is = l' ++ led o c js) : l = l' ∧ is = js := by
  have hopening : [o, c] ≠ [',', ' '] := fun heq => ho (List.cons.inj heq).1
  rcases eq_or_ne is [] with rfl | hne <;> rcases eq_or_ne js [] with rfl | hne'
  · exact ⟨List.append_cancel_right h, rfl⟩
  · rw [led_of_ne_nil hne'] at h
    exact absurd (eq_of_append_eq h rfl) hopening
  · rw [led_of_ne_nil hne] at h
    exact absurd (eq_of_append_eq h.symm rfl) hopening
  · rw [led_of_ne_nil hne, led_of_ne_nil hne'] at h
    exact hlisted (append_inj_end h rfl).1

/-- Items are read from the last to the first, down to the opening of the list. -/
theorem listed_cancel {is js : List (Option Term)} {o : Char}
    (hi : ∀ i ∈ is, ∀ t ∈ i, t.Plain ∧ t.Cancels) (hj : ∀ j ∈ js, ∀ u ∈ j, u.Plain) (ho : o ≠ ',')
    (hc : c ∈ [' ', '(']) (h : l ++ ([o, c] ++ listed is) = l' ++ ([o, c] ++ listed js)) :
    l = l' ∧ is = js := by
  have hnone : listed [] = [] := rfl
  induction is using List.reverseRecOn generalizing js with
  | nil =>
    rcases js.eq_nil_or_concat with rfl | ⟨js, j, hjs⟩
    · exact ⟨List.append_cancel_right h, rfl⟩
    · rw [List.concat_eq_append] at hjs
      subst hjs
      rw [listed_concat, hnone, ← List.append_assoc l', List.append_nil, List.append_cons] at h
      exact absurd h (concat_ne_item (hj j (by simp)) hc)
  | append_singleton is i ih =>
    obtain ⟨his, hi⟩ := List.forall_mem_append.1 hi
    have hi := hi i (by simp)
    rcases js.eq_nil_or_concat with rfl | ⟨js, j, hjs⟩
    · rw [listed_concat, hnone, ← List.append_assoc l, List.append_nil, List.append_cons l'] at h
      exact absurd h.symm (concat_ne_item (fun t ht => (hi t ht).1) hc)
    · rw [List.concat_eq_append] at hjs
      subst hjs
      obtain ⟨hjs, hj⟩ := List.forall_mem_append.1 hj
      rw [listed_concat, listed_concat, ← List.append_assoc l, ← List.append_assoc l'] at h
      obtain ⟨hled, rfl⟩ := item_cancel hi (hj j (by simp)) h
      obtain ⟨hl, rfl⟩ := led_cancel ho (ih his hjs) hled
      exact ⟨hl, rfl⟩

/-! ## Terms with a list -/

theorem forall_mem_items {P : Term → Prop} (h : ∀ p ∈ params, P p) (varargs : Bool) :
    ∀ i ∈ items params varargs, ∀ t ∈ i, P t := by
  rintro i hi t rfl
  rcases List.mem_append.1 hi with hi | hi
  · obtain ⟨p, hp, heq⟩ := List.mem_map.1 hi
    exact Option.some.inj heq ▸ h p hp
  · cases varargs with
    | false => cases hi
    | true => cases List.mem_singleton.1 hi

theorem items_inj {params params' : List Term} {varargs varargs' : Bool}
    (h : items params varargs = items params' varargs') : params = params' ∧ varargs = varargs' := by
  have hdots : ∀ ps v, none ∈ items ps v ↔ v = true := by
    intro ps v
    cases v <;> simp [items]
  have hv : varargs = varargs' := by
    rw [Bool.eq_iff_iff, ← hdots params, h, hdots]
  subst hv
  have hmap : params.map some = params'.map some := List.append_cancel_right h
  exact ⟨(List.map_inj_right fun _ _ => Option.some.inj).1 hmap, rfl⟩

theorem cancels_struct (hfields : ∀ p ∈ fields, p.Plain ∧ p.Cancels) :
    (node (.struct false) fields).Cancels := by
  intro u l l' hu h
  have hplain : (node (.struct false) fields).Plain := .struct false fun p hp => (hfields p hp).1
  obtain ⟨cs, c, hcs, hc⟩ := hplain.exists_chars_concat
  obtain rfl := eq_of_beq hc
  obtain ⟨fields', hfields', rfl⟩ := hu.eq_struct (hu.endsIn_of_append hcs h)
  rcases eq_or_ne fields [] with rfl | hne <;> rcases eq_or_ne fields' [] with rfl | hne'
  · exact ⟨List.append_cancel_right h, rfl⟩
  · rw [chars_struct_nil, chars_struct hne'] at h
    cases eq_of_append_eq h rfl
  · rw [chars_struct_nil, chars_struct hne] at h
    cases eq_of_append_eq h.symm rfl
  · rw [chars_struct hne, chars_struct hne'] at h
    obtain ⟨hl, hitems⟩ := listed_cancel (forall_mem_items hfields false)
      (forall_mem_items hfields' false) (by decide) (by decide) (append_inj_end h rfl).1
    exact ⟨hl, by rw [(items_inj hitems).1]⟩

theorem Cancels.packed (ht : (node (.struct false) fields).Cancels) :
    (node (.struct true) fields).Cancels := by
  intro u l l' hu h
  rcases hu.eq_packed_or_vector (hu.endsIn_of_append chars_packed h) with
    ⟨fields', hfields', rfl⟩ | ⟨len, elem, helem, rfl⟩
  · rw [chars_packed, chars_packed] at h
    obtain ⟨h, -⟩ := append_inj_end h rfl
    rw [List.append_cons l, List.append_cons l'] at h
    obtain ⟨hl, heq⟩ := ht hfields' h
    cases heq
    exact ⟨List.append_cancel_right hl, rfl⟩
  · rw [chars_vector, chars_packed] at h
    obtain ⟨h, -⟩ := append_inj_end h rfl
    rw [Term.counted, ← List.append_assoc l', List.append_cons l] at h
    exact absurd (ht helem h).1.symm length_ne_bracket

theorem Cancels.function (varargs : Bool) (hret : ret.Cancels)
    (hparams : ∀ p ∈ params, p.Plain ∧ p.Cancels) :
    (node (.function varargs []) (ret :: params)).Cancels := by
  intro u l l' hu h
  obtain ⟨varargs', ret', params', hret', hparams', rfl⟩ :=
    hu.eq_function (hu.endsIn_of_append (chars_function varargs) h)
  rw [chars_function, chars_function] at h
  obtain ⟨h, -⟩ := append_inj_end h rfl
  rw [← List.append_assoc l, ← List.append_assoc l'] at h
  obtain ⟨h, hitems⟩ := listed_cancel (forall_mem_items hparams varargs)
    (forall_mem_items hparams' varargs') (by decide) (by decide) h
  obtain ⟨hl, rfl⟩ := hret hret' h
  obtain ⟨rfl, rfl⟩ := items_inj hitems
  exact ⟨hl, rfl⟩

/-! ## The text determines the term -/

/-- No text of a plain term is a proper ending of another. -/
theorem Plain.cancels (ht : t.Plain) : t.Cancels := by
  induction ht with
  | up n => exact cancels_up n
  | primitive p => exact cancels_primitive p
  | integer bits => exact cancels_integer bits
  | function varargs hret hparams ihret ihparams =>
    exact ihret.function varargs fun p hp => ⟨hparams p hp, ihparams p hp⟩
  | struct packed hfields ih =>
    have hunpacked := cancels_struct fun p hp => ⟨hfields p hp, ih p hp⟩
    cases packed with
    | false => exact hunpacked
    | true => exact hunpacked.packed
  | array len helem ih => exact ih.array len
  | vector len helem ih => exact ih.vector len
  | pointer helem ih => exact ih.pointer
  | placeholder => exact cancels_placeholder

/-- **The text determines the term.** -/
theorem Plain.eq_of_text_eq (ht : t.Plain) (hu : u.Plain) (h : t.text = u.text) : t = u :=
  (ht.cancels hu (congrArg (fun s => [] ++ s.toList) h)).2

end Term

end TypeGraph
