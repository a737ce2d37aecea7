import TypeGraph.WideMask
import TypeGraph.Proofs.Sizes

/-!
# All-ones masks

The mask of a width is the number `2 ^ width - 1`, written in words that each hold 64 of its bits.

1. A word with its low `n` bits set is `2 ^ n - 1`, and `n` of its bits are set.
2. A numeral in base sixteen is continued by the digits of a word if these are padded to sixteen
   (`toDigits_append_hexPadded`). So the text of a mask is the numeral of its value, provided that
   the highest word is not zero (`text_eq`). No other numeral of the value is as short
   (`isShortest_toDigits`).
3. All words of an all-ones mask but the highest are full, and there is a highest one that is not
   full just if the width is no multiple of 64 (`toList_words`).

`allOnes_exact` says what follows for the mask of each width.
-/

namespace TypeGraph

/-! ## Bits of words -/

namespace Word

variable {w n : UInt64} {k : Nat}

theorem toNat_allOnes : allOnes.toNat = 2 ^ 64 - 1 := rfl

theorem toNat_lowOnes (hpos : 0 < n.toNat) (hle : n.toNat ≤ 64) :
    (lowOnes n).toNat = 2 ^ n.toNat - 1 := by
  have hsub : (64 - n).toNat = 64 - n.toNat :=
    UInt64.toNat_sub_of_le _ _ (UInt64.le_iff_toNat_le.2 hle)
  unfold lowOnes
  rw [UInt64.toNat_shiftRight, hsub, Nat.mod_eq_of_lt (by omega), toNat_allOnes]
  -- bit `i` comes from bit `64 - n + i`
  refine Nat.eq_of_testBit_eq fun i => ?_
  rw [Nat.testBit_shiftRight, Nat.testBit_two_pow_sub_one, Nat.testBit_two_pow_sub_one]
  exact decide_eq_decide.2 (by omega)

theorem bitCount_eq (w : UInt64) : bitCount w = (List.range 64).countP w.toNat.testBit := by
  unfold bitCount
  refine List.countP_congr fun i hi => ?_
  have hshift : (w >>> i.toUInt64).toNat = w.toNat / 2 ^ i := by
    have hi : i.toUInt64.toNat % 64 = i := by
      have hlt := List.mem_range.1 hi
      rw [UInt64.toNat_ofNat', Nat.mod_eq_of_lt (by omega), Nat.mod_eq_of_lt (by omega)]
    rw [UInt64.toNat_shiftRight, hi, Nat.shiftRight_eq_div_pow]
  rw [beq_iff_eq, ← UInt64.toNat_inj, UInt64.toNat_and, hshift, Nat.testBit_eq_decide_div_mod_eq,
    decide_eq_true_eq, UInt64.toNat_one, Nat.and_one_is_mod]

/-- A word with its low bits set has as many bits set. -/
theorem bitCount_of_toNat_eq (hw : w.toNat = 2 ^ k - 1) (hk : k ≤ 64) : bitCount w = k := by
  obtain ⟨d, hd⟩ : ∃ d, 64 = k + d := ⟨64 - k, by omega⟩
  have hlow : (List.range k).countP (2 ^ k - 1).testBit = k := by
    rw [List.countP_eq_length.2, List.length_range]
    intro i hi
    rw [Nat.testBit_two_pow_sub_one]
    exact decide_eq_true (List.mem_range.1 hi)
  have hhigh : ((List.range d).map fun i => k + i).countP (2 ^ k - 1).testBit = 0 := by
    rw [List.countP_eq_zero]
    intro i hi
    obtain ⟨j, -, rfl⟩ := List.mem_map.1 hi
    rw [Nat.testBit_two_pow_sub_one]
    simp
  rw [bitCount_eq, hw, hd, List.range_add, List.countP_append, hlow, hhigh, Nat.add_zero]

/-- A count with the bits of one more word, if it is a 32-bit word. -/
def tally? (n : UInt32) (w : UInt64) : Option UInt32 :=
  if n.toNat + bitCount w < 2 ^ 32 then some (n + (bitCount w).toUInt32) else none

theorem tally?_eq_some_iff {n k : UInt32} :
    tally? n w = some k ↔ k.toNat = n.toNat + bitCount w := by
  unfold tally?
  split
  · next hlt =>
    rw [Option.some.injEq, ← UInt32.toNat_inj, UInt32.toNat_add, UInt32.toNat_ofNat',
      Nat.add_mod_mod, Nat.mod_eq_of_lt hlt]
    exact eq_comm
  · next hge =>
    refine ⟨fun h => (by cases h), fun h => absurd ?_ hge⟩
    rw [← h]
    exact k.toNat_lt

/-- A sum of counts that is a word is counted in words. -/
theorem foldlM_tally? {n k : UInt32} {ws : List UInt64}
    (hk : k.toNat = n.toNat + (ws.map bitCount).sum) : ws.foldlM tally? n = some k := by
  induction ws generalizing n with
  | nil =>
    rw [List.map_nil, List.sum_nil, Nat.add_zero, UInt32.toNat_inj] at hk
    rw [hk]
    rfl
  | cons w ws ih =>
    rw [List.map_cons, List.sum_cons] at hk
    have hlt : k.toNat < UInt32.size := k.toNat_lt
    obtain ⟨n', hn'⟩ : ∃ n' : UInt32, n'.toNat = n.toNat + bitCount w :=
      ⟨UInt32.ofNat (n.toNat + bitCount w), UInt32.toNat_ofNat_of_lt' (by omega)⟩
    rw [List.foldlM_cons, tally?_eq_some_iff.2 hn']
    exact ih (by omega)

end Word

/-! ## Numerals in base sixteen -/

namespace Numeral

/-- The digit that a character stands for. -/
def digit? (c : Char) : Option Nat := "0123456789abcdef".toList.idxOf? c

/-- The number that the characters write after a number that was written before. -/
def valueFrom? (n : Nat) (ds : List Char) : Option Nat :=
  ds.foldlM (fun v c => (digit? c).map (16 * v + ·)) n

/-- The number that the characters write. There is none if one of them is no digit, or if there is
no character. -/
def value? (ds : List Char) : Option Nat := if ds = [] then none else valueFrom? 0 ds

/-- The characters write the number, and no others of the same or a smaller number do. -/
structure IsShortest (ds : List Char) (n : Nat) : Prop where
  value : value? ds = some n
  eq_or_length_lt : ∀ {other}, value? other = some n → other = ds ∨ ds.length < other.length

variable {c : Char} {d k m n : Nat} {ds : List Char}

theorem digit?_eq_some_iff : digit? c = some d ↔ d < 16 ∧ c = d.digitChar := by
  constructor
  · intro h
    unfold digit? List.idxOf? at h
    obtain ⟨hd, hc, -⟩ := List.findIdx?_eq_some_iff_getElem.1 h
    have hd : d < 16 := hd
    refine ⟨hd, ?_⟩
    rw [← eq_of_beq hc]
    interval_cases d <;> rfl
  · rintro ⟨hd, rfl⟩
    interval_cases d <;> decide

theorem valueFrom?_concat (ds : List Char) (c : Char) :
    valueFrom? n (ds ++ [c]) = (valueFrom? n ds).bind fun v => (digit? c).map (16 * v + ·) := by
  unfold valueFrom?
  rw [List.foldlM_append, Option.bind_eq_bind]
  congr 1
  funext v
  rw [List.foldlM_cons, Option.bind_eq_bind]
  cases digit? c <;> rfl

theorem valueFrom?_concat_eq_some_iff : valueFrom? m (ds ++ [c]) = some n ↔
    ∃ v d, valueFrom? m ds = some v ∧ d < 16 ∧ c = d.digitChar ∧ n = 16 * v + d := by
  rw [valueFrom?_concat, Option.bind_eq_some_iff]
  simp only [Option.map_eq_some_iff, digit?_eq_some_iff]
  constructor
  · rintro ⟨v, hv, d, ⟨hd, hc⟩, rfl⟩
    exact ⟨v, d, hv, hd, hc, rfl⟩
  · rintro ⟨v, d, hv, hd, hc, rfl⟩
    exact ⟨v, hv, d, ⟨hd, hc⟩, rfl⟩

theorem toDigits_concat (hn : 0 < n) (hd : d < 16) :
    Nat.toDigits 16 (16 * n + d) = Nat.toDigits 16 n ++ [d.digitChar] := by
  rw [← Nat.toDigits_append_toDigits (by decide) hn hd, Nat.toDigits_of_lt_base hd]

theorem valueFrom?_toDigits (n : Nat) : valueFrom? 0 (Nat.toDigits 16 n) = some n := by
  induction n using Nat.base_induction 16 (by decide) with
  | single d hd =>
    rw [Nat.toDigits_of_lt_base hd, ← List.nil_append [d.digitChar], valueFrom?_concat_eq_some_iff]
    exact ⟨0, d, rfl, hd, rfl, by omega⟩
  | digit n d hd hn ih =>
    rw [toDigits_concat hn hd, valueFrom?_concat_eq_some_iff]
    exact ⟨n, d, ih, hd, rfl, rfl⟩

/-- What writes a number is its numeral, or longer than that, or empty. -/
theorem eq_toDigits_or_length_lt (h : valueFrom? 0 ds = some n) :
    ds = [] ∨ ds = Nat.toDigits 16 n ∨ (Nat.toDigits 16 n).length < ds.length := by
  induction ds using List.reverseRecOn generalizing n with
  | nil => exact .inl rfl
  | append_singleton ds c ih =>
    refine .inr ?_
    obtain ⟨v, d, hv, hd, rfl, rfl⟩ := valueFrom?_concat_eq_some_iff.1 h
    rw [List.length_append, List.length_singleton]
    rcases Nat.eq_zero_or_pos v with rfl | hpos
    · rw [Nat.mul_zero, Nat.zero_add, Nat.toDigits_of_lt_base hd]
      rcases List.eq_nil_or_concat ds with rfl | ⟨_, _, rfl⟩
      · exact .inl rfl
      · exact .inr (by simp)
    · rw [toDigits_concat hpos hd, List.length_append, List.length_singleton]
      rcases ih hv with rfl | rfl | hlt
      · cases hv
        cases hpos
      · exact .inl rfl
      · exact .inr (by omega)

/-- The digits of a number are its shortest numeral. -/
theorem isShortest_toDigits (n : Nat) : IsShortest (Nat.toDigits 16 n) n where
  value := by rw [value?, if_neg Nat.toDigits_ne_nil, valueFrom?_toDigits]
  eq_or_length_lt := by
    intro other h
    unfold value? at h
    split at h
    · cases h
    · next hne => exact (eq_toDigits_or_length_lt h).resolve_left hne

/-- Behind a numeral the digits of a number below `16 ^ (k + 1)`, padded to `k + 1`, continue the
numeral. -/
theorem toDigits_append_padded (hn : 0 < n) (hm : m < 16 ^ (k + 1)) :
    Nat.toDigits 16 n ++
        (List.replicate (k + 1 - (Nat.toDigits 16 m).length) '0' ++ Nat.toDigits 16 m) =
      Nat.toDigits 16 (16 ^ (k + 1) * n + m) := by
  induction k generalizing m with
  | zero =>
    rw [Nat.zero_add, Nat.pow_one] at hm ⊢
    rw [Nat.toDigits_of_lt_base hm, toDigits_concat hn hm]
    rfl
  | succ k ih =>
    -- the last digit of `m` is the last one on both sides
    obtain ⟨q, d, hd, rfl⟩ : ∃ q d, d < 16 ∧ m = 16 * q + d :=
      ⟨m / 16, m % 16, Nat.mod_lt m (by decide), (Nat.div_add_mod m 16).symm⟩
    have hq : q < 16 ^ (k + 1) := by
      rw [Nat.pow_succ] at hm
      omega
    have hvalue : 16 ^ (k + 1 + 1) * n + (16 * q + d) = 16 * (16 ^ (k + 1) * n + q) + d := by ring
    have hpos : 0 < 16 ^ (k + 1) * n + q :=
      Nat.add_pos_left (Nat.mul_pos (Nat.pow_pos (by decide)) hn) q
    rw [hvalue, toDigits_concat hpos hd, ← ih hq]
    rcases Nat.eq_zero_or_pos q with rfl | hqpos
    · rw [Nat.mul_zero, Nat.zero_add, Nat.toDigits_of_lt_base hd, Nat.toDigits_zero]
      simp [List.replicate_succ']
    · rw [toDigits_concat hqpos hd]
      simp

end Numeral

/-! ## Values and texts of masks -/

namespace WideMask

/-- The number that the words write in base `2 ^ 64`, the lowest first. -/
def value (m : WideMask) : Nat := Nat.ofDigits (2 ^ 64) (m.words.toList.map UInt64.toNat)

/-- The number of bits that are set, counted in a 32-bit word. There is none if the count is not a
word on the way. -/
def ones? (m : WideMask) : Option UInt32 := m.words.foldlM Word.tally? 0

variable {m : WideMask} {width : UInt32} {n : Nat} {rest : List UInt64}

/-- Behind the numeral of a number, the padded digits of words continue the numeral. -/
theorem toDigits_append_hexPadded (hn : 0 < n) (rest : List UInt64) :
    Nat.toDigits 16 n ++ (String.join (rest.map Word.hexPadded)).toList =
      Nat.toDigits 16 (rest.foldl (fun v w => w.toNat + 2 ^ 64 * v) n) := by
  induction rest generalizing n with
  | nil => simp
  | cons w rest ih =>
    have hjoin : (String.join ((w :: rest).map Word.hexPadded)).toList =
        (Word.hexPadded w).toList ++ (String.join (rest.map Word.hexPadded)).toList := by
      simp [String.join_eq]
    have hword : Nat.toDigits 16 n ++ (Word.hexPadded w).toList =
        Nat.toDigits 16 (w.toNat + 2 ^ 64 * n) := by
      rw [Word.hexPadded, String.toList_ofList, Word.hexDigits, Nat.add_comm]
      exact Numeral.toDigits_append_padded (k := 15) hn w.toNat_lt
    rw [hjoin, ← List.append_assoc, hword, List.foldl_cons]
    exact ih (Nat.add_pos_right _ (Nat.mul_pos (by decide) hn))

theorem value_eq_foldr (m : WideMask) :
    m.value = m.words.toList.foldr (fun w v => w.toNat + 2 ^ 64 * v) 0 := by
  unfold value
  rw [Nat.ofDigits_eq_foldr, List.foldr_map]
  rfl

/-- A mask whose highest word is not zero is written as the numeral of its value. -/
theorem text_eq (hm : m.high? ≠ some 0) :
    m.text = "0x" ++ String.ofList (Nat.toDigits 16 m.value) := by
  have hvalue : m.value = m.words.toList.reverse.foldl (fun v w => w.toNat + 2 ^ 64 * v) 0 := by
    rw [value_eq_foldr, List.foldl_reverse]
  unfold text
  rw [hvalue]
  cases hr : m.words.toList.reverse with
  | nil => rfl
  | cons high rest =>
    have hhigh : m.high? = some high := by
      rw [high?, ← Array.getLast?_toList, ← List.head?_reverse, hr, List.head?_cons]
    have hpos : 0 < high.toNat := by
      refine Nat.pos_of_ne_zero fun h0 => hm ?_
      rw [hhigh, UInt64.toNat_inj.1 (h0.trans UInt64.toNat_zero.symm)]
    rw [List.foldl_cons, Nat.mul_zero, Nat.add_zero, ← toDigits_append_hexPadded hpos,
      String.ofList_append, String.ofList_toList]
    exact String.append_assoc

theorem ones_eq_sum (m : WideMask) : m.ones = (m.words.toList.map Word.bitCount).sum := by
  unfold ones
  rw [← Array.foldl_toList, List.sum_eq_foldl, List.foldl_map]

/-- A number of bits that is a word is counted in words. -/
theorem ones?_eq_some (hm : width.toNat = m.ones) : m.ones? = some width := by
  unfold ones?
  rw [← Array.foldlM_toList]
  refine Word.foldlM_tally? ?_
  rw [hm, ones_eq_sum, UInt32.toNat_zero, Nat.zero_add]

/-! ## All-ones masks -/

/-- The word above the full ones, for the bits that they leave over. -/
def partialWords (width : UInt32) : List UInt64 :=
  if width.toNat % 64 = 0 then [] else [Word.lowOnes (width % 64).toUInt64]

theorem toNat_rest (width : UInt32) : (width % 64).toUInt64.toNat = width.toNat % 64 := by
  rw [UInt32.toNat_toUInt64, UInt32.toNat_mod]
  rfl

theorem toList_words (width : UInt32) : (allOnes width).words.toList =
    List.replicate (width.toNat / 64) Word.allOnes ++ partialWords width := by
  have hdiv : (width / 64).toNat = width.toNat / 64 := UInt32.toNat_div width 64
  have hrest : (width % 64).toUInt64 == 0 ↔ width.toNat % 64 = 0 := by
    rw [beq_iff_eq, ← UInt64.toNat_inj, toNat_rest, UInt64.toNat_zero]
  unfold allOnes partialWords
  simp only [hdiv]
  by_cases h0 : width.toNat % 64 = 0
  · rw [if_pos h0, if_pos (hrest.2 h0), Array.toList_replicate, List.append_nil]
  · rw [if_neg h0, if_neg (mt hrest.1 h0), Array.toList_push, Array.toList_replicate]

/-- The bits above the full words are the low bits of one word, if there are any. -/
theorem partialWords_cases (width : UInt32) :
    (width.toNat % 64 = 0 ∧ partialWords width = []) ∨
      ∃ w, partialWords width = [w] ∧ 0 < width.toNat % 64 ∧
        w.toNat = 2 ^ (width.toNat % 64) - 1 := by
  unfold partialWords
  by_cases h0 : width.toNat % 64 = 0
  · exact .inl ⟨h0, if_pos h0⟩
  · have hlt := Nat.mod_lt width.toNat (show 0 < 64 by decide)
    refine .inr ⟨_, if_neg h0, Nat.pos_of_ne_zero h0, ?_⟩
    rw [Word.toNat_lowOnes, toNat_rest]
    · rw [toNat_rest]
      exact Nat.pos_of_ne_zero h0
    · rw [toNat_rest]
      exact hlt.le

theorem size_words (width : UInt32) :
    (allOnes width).words.size = (width.toNat + 63) / 64 := by
  rw [← Array.length_toList, toList_words, List.length_append, List.length_replicate]
  rcases partialWords_cases width with ⟨h0, hp⟩ | ⟨w, hp, hpos, -⟩
  · rw [hp, List.length_nil]
    omega
  · rw [hp, List.length_singleton]
    omega

/-- The largest digits of a base write the number below a power of it. -/
theorem ofDigits_replicate_add_one {b : Nat} (hb : 0 < b) (q : Nat) :
    Nat.ofDigits b (List.replicate q (b - 1)) + 1 = b ^ q := by
  induction q with
  | zero => rfl
  | succ q ih =>
    rw [List.replicate_succ, Nat.ofDigits_cons, Nat.pow_succ, ← ih, Nat.mul_comm _ b, Nat.mul_add]
    omega

theorem value_allOnes (width : UInt32) : (allOnes width).value = 2 ^ width.toNat - 1 := by
  have hfull := ofDigits_replicate_add_one (b := 2 ^ 64) (by decide) (width.toNat / 64)
  have hwidth : 2 ^ width.toNat = (2 ^ 64) ^ (width.toNat / 64) * 2 ^ (width.toNat % 64) := by
    rw [← Nat.pow_mul, ← Nat.pow_add, Nat.div_add_mod]
  unfold value
  rw [toList_words, List.map_append, List.map_replicate, Word.toNat_allOnes, Nat.ofDigits_append,
    List.length_replicate, hwidth]
  rcases partialWords_cases width with ⟨h0, hp⟩ | ⟨w, hp, hpos, hw⟩
  · rw [hp, h0, Nat.pow_zero, Nat.mul_one, ← hfull]
    rfl
  · rw [hp, List.map_singleton, Nat.ofDigits_singleton, hw, Nat.mul_sub, Nat.mul_one]
    have hle := Nat.le_mul_of_pos_right ((2 ^ 64) ^ (width.toNat / 64))
      (Nat.two_pow_pos (width.toNat % 64))
    omega

theorem ones_allOnes (width : UInt32) : (allOnes width).ones = width.toNat := by
  have hfull : Word.bitCount Word.allOnes = 64 :=
    Word.bitCount_of_toNat_eq (k := 64) Word.toNat_allOnes (Nat.le_refl _)
  rw [ones_eq_sum, toList_words, List.map_append, List.sum_append, List.map_replicate, hfull,
    List.sum_replicate, smul_eq_mul]
  rcases partialWords_cases width with ⟨h0, hp⟩ | ⟨w, hp, hpos, hw⟩
  · rw [hp, List.map_nil, List.sum_nil]
    omega
  · rw [hp, List.map_singleton, List.sum_singleton, Word.bitCount_of_toNat_eq hw (by omega)]
    omega

theorem toNat_low (width : UInt32) : (allOnes width).low.toNat = 2 ^ min width.toNat 64 - 1 := by
  unfold low
  rw [← Array.getElem?_toList, toList_words]
  cases hq : width.toNat / 64 with
  | succ q =>
    rw [List.replicate_succ, List.cons_append, List.getElem?_cons_zero, Option.getD_some,
      Nat.min_eq_right (by omega), Word.toNat_allOnes]
  | zero =>
    rw [Nat.min_eq_left (by omega), List.replicate_zero, List.nil_append]
    rcases partialWords_cases width with ⟨h0, hp⟩ | ⟨w, hp, hpos, hw⟩
    · rw [hp, show width.toNat = 0 by omega]
      rfl
    · rw [hp, List.getElem?_cons_zero, Option.getD_some, hw, Nat.mod_eq_of_lt (by omega)]

/-- No all-ones mask has an empty highest word. -/
theorem high?_ne_zero (width : UInt32) : (allOnes width).high? ≠ some 0 := by
  unfold high?
  rw [← Array.getLast?_toList, toList_words]
  rcases partialWords_cases width with ⟨h0, hp⟩ | ⟨w, hp, hpos, hw⟩
  · rw [hp, List.append_nil, List.getLast?_replicate]
    split
    · exact fun h => by cases h
    · decide
  · rw [hp, List.getLast?_concat]
    intro h
    rw [Option.some.inj h] at hw
    have hlt := Nat.one_lt_two_pow hpos.ne'
    rw [UInt64.toNat_zero] at hw
    omega

/-! ## The theorem -/

/-- What the all-ones mask of a width comes to. -/
structure Exact (width : UInt32) : Prop where
  /-- There are as many words as it takes to hold the bits. -/
  size_eq : (allOnes width).words.size = (width.toNat + 63) / 64
  value_eq : (allOnes width).value = 2 ^ width.toNat - 1
  ones_eq : (allOnes width).ones = width.toNat
  /-- The bits are counted without overflow. -/
  ones?_eq : (allOnes width).ones? = some width
  low_eq : (allOnes width).low.toNat = 2 ^ min width.toNat 64 - 1
  /-- Masks of different widths differ, and so do their words. -/
  eq_iff : ∀ {other}, (allOnes width = allOnes other ↔ width = other) ∧
    ((allOnes width).words = (allOnes other).words ↔ width = other)
  /-- The text is the shortest numeral of the value in base sixteen. -/
  text_eq : ∃ digits, (allOnes width).text = "0x" ++ String.ofList digits ∧
    Numeral.IsShortest digits (2 ^ width.toNat - 1)
  /-- The mask of an integer type that fits in a word is the lowest word of its wide mask. -/
  mask?_eq : ∀ {g h}, Graph.Reachable g → g.describe? h = some (.integer width) → width ≤ 64 →
    g.sizeInBits h = width.toNat ∧ IntegerWidth.mask? width = some (allOnes width).low

/-- The words tell the width. -/
theorem eq_of_words_eq {other : UInt32} (h : (allOnes width).words = (allOnes other).words) :
    width = other := by
  have hvalue : (allOnes width).value = (allOnes other).value := by
    unfold value
    rw [h]
  rw [value_allOnes, value_allOnes] at hvalue
  have hpow : 2 ^ width.toNat = 2 ^ other.toNat := by
    have hpos := Nat.two_pow_pos width.toNat
    have hpos' := Nat.two_pow_pos other.toNat
    omega
  exact UInt32.toNat_inj.1 (Nat.pow_right_injective (Nat.le_refl 2) hpow)

/-- An integer type has a width that is valid, and that is its size. -/
theorem sizeInBits_integer {g : Graph} {h : Handle} (hg : Graph.Reachable g)
    (hd : g.describe? h = some (.integer width)) :
    IntegerWidth.isValid width ∧ g.sizeInBits h = width.toNat := by
  have hshape : (g.live h).shape = .integer width :=
    congrArg Key.shape (Key.describe?_eq_some_iff.1 hd)
  exact ⟨(hg.wellMade (g.resolve h)).isValid hshape,
    Graph.sizeInBits_of_describe hd fun _ _ heq => (by cases heq)⟩

/-- For a positive width, the low bits of one word are those of the wide mask. -/
theorem mask?_eq_low (hpos : 0 < width.toNat) (hle : width ≤ 64) :
    IntegerWidth.mask? width = some (allOnes width).low := by
  have hle' : width.toNat ≤ 64 := UInt32.le_iff_toNat_le.1 hle
  unfold IntegerWidth.mask?
  rw [if_pos hle, Option.some.injEq, ← UInt64.toNat_inj, toNat_low, Nat.min_eq_left hle',
    Word.toNat_lowOnes]
  · rw [UInt32.toNat_toUInt64]
  · rwa [UInt32.toNat_toUInt64]
  · rwa [UInt32.toNat_toUInt64]

/-- **All-ones masks.** The mask of each width is the number `2 ^ width - 1`: its words write it,
its text is the shortest numeral of it, and all of its bits are set. -/
theorem allOnes_exact (width : UInt32) : Exact width where
  size_eq := size_words width
  value_eq := value_allOnes width
  ones_eq := ones_allOnes width
  ones?_eq := ones?_eq_some (ones_allOnes width).symm
  low_eq := toNat_low width
  eq_iff := by
    intro other
    refine ⟨⟨fun h => eq_of_words_eq (congrArg words h), congrArg allOnes⟩,
      ⟨eq_of_words_eq, fun h => by rw [h]⟩⟩
  text_eq := by
    refine ⟨_, text_eq (high?_ne_zero width), ?_⟩
    rw [value_allOnes]
    exact Numeral.isShortest_toDigits _
  mask?_eq := by
    intro g h hg hd hle
    obtain ⟨hvalid, hsize⟩ := sizeInBits_integer hg hd
    refine ⟨hsize, mask?_eq_low ?_ hle⟩
    unfold IntegerWidth.isValid IntegerWidth.least at hvalid
    simp only [Bool.and_eq_true, decide_eq_true_eq, UInt32.le_iff_toNat_le] at hvalid
    exact hvalid.1

set_option maxRecDepth 10000 in
/-- The widest built-in integer fills a word. -/
theorem allOnes_exact_i64 : Graph.initial.describe? .i64 = some (.integer 64) ∧
    IntegerWidth.mask? 64 = some (allOnes 64).low ∧ (allOnes 64).low.toNat = 2 ^ 64 - 1 := by
  have hkey : (Graph.initial.live .i64).key = ⟨.integer 64, []⟩ := by cbv
  have hd : Graph.initial.describe? .i64 = some (.integer 64) := Key.describe?_eq_some_iff.2 hkey
  exact ⟨hd, ((allOnes_exact 64).mask?_eq .initial hd (by decide)).2, (allOnes_exact 64).low_eq⟩

example : (allOnes 65).words = #[0xFFFFFFFFFFFFFFFF, 1] := by decide

end WideMask

end TypeGraph
