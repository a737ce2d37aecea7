/-!
# Words, integer widths and masks

An integer type has any width from one bit to the widest that fits in 23 bits. The mask of a
`width`-bit integer has its low `width` bits set. It is a word if the integer fits in one, and it is
kept as 64-bit words, the lowest first, so that it exists at every width.
-/

namespace TypeGraph

/-! ## Words -/

namespace Word

/-- The word with every bit set. -/
def allOnes : UInt64 := 0xFFFFFFFFFFFFFFFF

/-- The word with the low `n` bits set, for `0 < n ≤ 64`. -/
def lowOnes (n : UInt64) : UInt64 := allOnes >>> (64 - n)

/-- The number of bits that are set. -/
def bitCount (w : UInt64) : Nat :=
  (List.range 64).countP fun i => (w >>> i.toUInt64) &&& 1 == 1

def hexDigits (w : UInt64) : List Char := Nat.toDigits 16 w.toNat

/-- The word in base sixteen, without leading zeros. -/
def hex (w : UInt64) : String := String.ofList (hexDigits w)

/-- The word in base sixteen as sixteen digits. -/
def hexPadded (w : UInt64) : String :=
  String.ofList (List.replicate (16 - (hexDigits w).length) '0' ++ hexDigits w)

end Word

/-! ## Integer widths -/

namespace IntegerWidth

def least : UInt32 := 1

def greatest : UInt32 := 8388607

/-- Whether there is an integer type of that width. -/
def isValid (bits : UInt32) : Bool := least ≤ bits && bits ≤ greatest

/-- The mask of the low `bits` bits, for an integer that fits in a word. -/
def mask? (bits : UInt32) : Option UInt64 :=
  if bits ≤ 64 then some (Word.lowOnes bits.toUInt64) else none

/-- Whether the width in whole bytes is a power of two. -/
def isPowerOfTwoBytes (bits : UInt32) : Bool :=
  let bytes := (bits.toNat + 7) / 8
  1 <<< bytes.log2 == bytes

end IntegerWidth

/-! ## Masks of any width -/

/-- A mask with its width. -/
structure WideMask where
  width : UInt32
  words : Array UInt64
deriving DecidableEq, Repr

namespace WideMask

/-- The mask with the low `width` bits set. -/
def allOnes (width : UInt32) : WideMask :=
  let full := Array.replicate (width / 64).toNat Word.allOnes
  let rest := (width % 64).toUInt64
  ⟨width, if rest == 0 then full else full.push (Word.lowOnes rest)⟩

/-- The lowest 64 bits. -/
def low (m : WideMask) : UInt64 := m.words[0]?.getD 0

/-- The highest word. -/
def high? (m : WideMask) : Option UInt64 := m.words.back?

/-- The number of bits that are set. -/
def ones (m : WideMask) : Nat := m.words.foldl (fun n w => n + Word.bitCount w) 0

/-- The value in base sixteen after `0x`: the highest word as it is, the others padded. -/
def text (m : WideMask) : String :=
  match m.words.toList.reverse with
  | [] => "0x0"
  | high :: rest => "0x" ++ Word.hex high ++ String.join (rest.map Word.hexPadded)

/-- The spelling in diagnostics. -/
def debug (m : WideMask) : String := "WideMask(i" ++ toString m.width ++ ": " ++ m.text ++ ")"

end WideMask

end TypeGraph
