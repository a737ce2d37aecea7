import TypeGraph.Attributes

/-!
# Attribute lists up to trailing empty sets

Trimming keeps every entry, and the entries determine the trimmed list. So trimmed lists are one
normal form: two lists have the same one exactly when they agree at every index, padded with empty
sets.
-/

namespace TypeGraph.Attributes

variable {a b : Attributes} {as bs : List Attributes}

theorem isEmpty_iff : a.isEmpty ↔ a = none := by
  unfold isEmpty none
  rw [beq_iff_eq]
  constructor
  · intro h
    cases a
    exact congrArg mk h
  · rintro rfl
    rfl

@[simp] theorem entry_nil (i : Nat) : entry [] i = none := rfl

@[simp] theorem entry_cons_zero : entry (a :: as) 0 = a := rfl

@[simp] theorem entry_cons_succ (i : Nat) : entry (a :: as) (i + 1) = entry as i := rfl

theorem trim_cons : trim (a :: as) = if trim as = [] ∧ a = none then [] else a :: trim as := by
  rw [trim]
  cases htail : trim as with
  | nil => simp [isEmpty_iff]
  | cons b bs => simp

/-- Trimming keeps every entry. -/
@[simp] theorem entry_trim (as : List Attributes) (i : Nat) : entry (trim as) i = entry as i := by
  induction as generalizing i with
  | nil => rfl
  | cons a as ih =>
    rw [trim_cons]
    split
    · next h =>
      -- the list is empty once trimmed, so all its entries are
      cases i with
      | zero => exact h.2.symm
      | succ i =>
        rw [entry_cons_succ, ← ih i, h.1]
        rfl
    · cases i with
      | zero => rfl
      | succ i => exact ih i

theorem trim_eq_nil (h : ∀ i, entry as i = none) : trim as = [] := by
  induction as with
  | nil => rfl
  | cons a as ih => rw [trim_cons, if_pos ⟨ih fun i => h (i + 1), h 0⟩]

/-- Lists with the same entries have one trimmed form, and only they have. -/
theorem trim_eq_trim_iff : trim as = trim bs ↔ ∀ i, entry as i = entry bs i := by
  refine ⟨fun h i => by rw [← entry_trim as, h, entry_trim], fun h => ?_⟩
  induction as generalizing bs with
  | nil => exact (trim_eq_nil fun i => (h i).symm).symm
  | cons a as ih =>
    cases bs with
    | nil => exact trim_eq_nil h
    | cons b bs =>
      obtain rfl : a = b := h 0
      rw [trim_cons, trim_cons, ih fun i => h (i + 1)]

theorem trim_trim (as : List Attributes) : trim (trim as) = trim as :=
  trim_eq_trim_iff.2 (entry_trim as)

end TypeGraph.Attributes
