import Mathlib.Algebra.Group.Nat.Defs
import Mathlib.Data.Int.Basic
import TinyLisp.Text.Decimal

/-!
# Decimal numbers, written and read

Reading a run of digits yields the word that its value and its sign denote, or
nothing if there is no such word (`read?_eq_some_iff`, `isSome_read?_iff`).  The
digits that a word is written with are read back as the same word
(`read?_toDigits`), down to the least one, whose magnitude no positive word has.
-/

namespace TinyLisp.Decimal

/-- The integer denoted by a sign and a magnitude. -/
def signed (negative : Bool) (magnitude : ℕ) : ℤ :=
  if negative then -magnitude else magnitude

/-- The greatest magnitude that a number of the given sign can have. -/
def bound (negative : Bool) : ℕ :=
  if negative then 2 ^ 63 else 2 ^ 63 - 1

/-- There is a word for an integer that is not out of bounds. -/
lemma word?_eq (negative : Bool) (m : ℕ) :
    word? negative m = if m ≤ bound negative then some (.ofInt (signed negative m)) else none := by
  unfold word? half bound signed
  cases negative with
  | true => rfl
  | false =>
    have hlt : m < 0x8000000000000000 ↔ m ≤ 2 ^ 63 - 1 := by omega
    simp only [hlt, Bool.false_eq_true, if_false]

/-- The word of an integer that is not out of bounds denotes it. -/
lemma toInt_ofInt_signed {negative : Bool} {m : ℕ} (h : m ≤ bound negative) :
    (Int64.ofInt (signed negative m)).toInt = signed negative m := by
  unfold bound signed at *
  cases negative with
  | true =>
    rw [if_pos rfl] at *
    exact Int64.toInt_ofInt_of_le (by omega) (by omega)
  | false =>
    rw [if_neg (by decide)] at *
    exact Int64.toInt_ofInt_of_le (by omega) (by omega)

/-- A word is read if the magnitude is not too great, and then it is the right one. -/
theorem read?_eq_some_iff (negative : Bool) (digits : String) (n : Int64) :
    read? negative digits = some n ↔
      value digits.toList ≤ bound negative ∧ n.toInt = signed negative (value digits.toList) := by
  rw [read?, word?_eq]
  split
  · next hm =>
    rw [Option.some.injEq, ← Int64.toInt_inj, toInt_ofInt_signed hm, eq_comm]
    exact (and_iff_right hm).symm
  · next hm => simp [hm]

/-- A number is refused exactly if its magnitude is too great. -/
theorem isSome_read?_iff (negative : Bool) (digits : String) :
    (read? negative digits).isSome ↔ value digits.toList ≤ bound negative := by
  rw [read?, word?_eq]
  split <;> simp [*]

/-! ### Digits -/

/-- More digits only make a number greater. -/
lemma le_ofDigitChars (digits : List Char) (n : ℕ) : n ≤ Nat.ofDigitChars 10 digits n := by
  induction digits generalizing n with
  | nil => exact Nat.le_refl n
  | cons c digits ih =>
    rw [Nat.ofDigitChars_cons]
    exact Nat.le_trans (by omega) (ih (10 * n + (c.toNat - '0'.toNat)))

/-- A run of digits has no smaller value when it goes on. -/
lemma value_le_of_isPrefix {ds es : List Char} (h : ds <+: es) : value ds ≤ value es := by
  obtain ⟨more, rfl⟩ := h
  unfold value
  rw [List.filter_append, Nat.ofDigitChars_append]
  exact le_ofDigitChars _ _

/-- What a number in range starts with is in range. -/
lemma exists_read?_of_isPrefix {negative : Bool} {digits more : String} {n : Int64}
    (h : digits.toList <+: more.toList) (hn : read? negative more = some n) :
    ∃ m, read? negative digits = some m := by
  have hbound : value more.toList ≤ bound negative := ((read?_eq_some_iff _ _ _).mp hn).1
  have hle : value digits.toList ≤ bound negative := Nat.le_trans (value_le_of_isPrefix h) hbound
  exact Option.isSome_iff_exists.mp ((isSome_read?_iff negative digits).mpr hle)

/-- The value of the digits of a number is the number. -/
lemma value_toDigits (n : ℕ) : value (Nat.toDigits 10 n) = n := by
  have hfilter : (Nat.toDigits 10 n).filter (· ≠ '_') = Nat.toDigits 10 n := by
    rw [List.filter_eq_self]
    intro c hc
    exact decide_eq_true (ne_of_mem_of_not_mem hc Nat.underscore_not_in_toDigits)
  rw [value, hfilter, Nat.ofDigitChars_ten_toDigits]

/-- The digits of a word are read back, with its sign, as the word. -/
theorem read?_toDigits (n : Int64) :
    read? (decide (n.toInt < 0)) (String.ofList (Nat.toDigits 10 n.toInt.natAbs)) = some n := by
  rw [read?_eq_some_iff, String.toList_ofList, value_toDigits]
  have hlow := n.le_toInt
  have hhigh := n.toInt_lt
  unfold bound signed
  by_cases hneg : n.toInt < 0
  · rw [if_pos (decide_eq_true hneg), if_pos (decide_eq_true hneg)]
    omega
  · rw [if_neg (mt of_decide_eq_true hneg), if_neg (mt of_decide_eq_true hneg)]
    omega

/-- The digits of a word that is not positive are read back behind a minus sign, also if
the word is zero. -/
lemma read?_true_toDigits {n : Int64} (h : n.toInt ≤ 0) :
    read? true (String.ofList (Nat.toDigits 10 n.toInt.natAbs)) = some n := by
  rw [read?_eq_some_iff, String.toList_ofList, value_toDigits]
  have hlow := n.le_toInt
  unfold bound signed
  rw [if_pos rfl, if_pos rfl]
  omega

/-- A word is written with its sign and its digits. -/
lemma write_eq (i : ℤ) :
    write i = (if i < 0 then ['-'] else []) ++ Nat.toDigits 10 i.natAbs := by
  cases i with
  | ofNat n => simp [write]
  | negSucc n => simp [write]

end TinyLisp.Decimal
