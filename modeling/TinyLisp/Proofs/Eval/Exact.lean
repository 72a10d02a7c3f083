import Mathlib.Data.Int.ModEq
import TinyLisp.Proofs.Eval.Submission

/-!
# Exact arithmetic

Sums and products wrap around at every single step.  `Expr.exactInt` is what an expression
comes to over the unbounded integers, where nothing wraps around and whatever is no
number counts as zero.

Reducing an integer to a word is compatible with sums and with products.  So it makes no
difference whether all intermediate results are reduced or only the last one: the number
that a value counts for is the exact integer, reduced once (`numeric_eval`).
-/

namespace TinyLisp

/-! ### Folding words -/

namespace Procedure

/-- Adding up reduced integers is reducing their sum. -/
lemma sum_eq_ofInt {args : List Value} {ks : List ℤ}
    (h : args.map numeric = ks.map Int64.ofInt) : sum args = Int64.ofInt ks.sum := by
  have hfold : ks.foldl (fun x k => x + Int64.ofInt k) (Int64.ofInt 0) =
      Int64.ofInt (ks.foldl (· + ·) 0) :=
    List.foldl_hom Int64.ofInt fun x k => (Int64.ofInt_add x k).symm
  rw [sum, h, List.foldl_map, List.sum_eq_foldl]
  exact hfold

/-- Multiplying reduced integers is reducing their product. -/
lemma product_eq_ofInt {args : List Value} {ks : List ℤ}
    (h : args.map numeric = ks.map Int64.ofInt) : product args = Int64.ofInt ks.prod := by
  have hfold : ks.foldl (fun x k => x * Int64.ofInt k) (Int64.ofInt 1) =
      Int64.ofInt (ks.foldl (· * ·) 1) :=
    List.foldl_hom Int64.ofInt fun x k => (Int64.ofInt_mul x k).symm
  rw [product, h, List.foldl_map, List.prod_eq_foldl]
  exact hfold

/-- Printing has no value. -/
lemma eq_none_of_printAll {args : List Value} {out out' : Sink} {v : Value}
    (h : printAll args out = (.ok v, out')) : v = none := by
  induction args generalizing out with
  | nil =>
    obtain ⟨hv, -⟩ := Prod.mk.inj h
    exact (Except.ok.inj hv).symm
  | cons a args ih =>
    rw [printAll] at h
    split at h
    · exact ih h
    · simp at h

end Procedure

/-- A computation of two parts has a value if the first part has one and the second part
goes on with it. -/
lemma exists_of_andThen_eq_ok {α β : Type} {run : Sink → Except EvalError α × Sink}
    {next : α → Sink → Except EvalError β × Sink} {out out' : Sink} {b : β}
    (h : andThen run next out = (.ok b, out')) :
    ∃ a mid, run out = (.ok a, mid) ∧ next a mid = (.ok b, out') := by
  unfold andThen at h
  split at h
  · simp at h
  · next a mid hrun => exact ⟨a, mid, hrun, h⟩

/-! ### Exact integers -/

namespace Expr

mutual

/-- The exact integer of an expression.  A text, an empty list, a call of `print` and a
call of an unknown name count as zero. -/
def exactInt : Expr → ℤ
  | .number n => n.toInt
  | .list (.atom name :: args) =>
    if name = "+" then (exactInts args).sum
    else if name = "*" then (exactInts args).prod
    else 0
  | .list [e] => exactInt e
  | _ => 0

/-- The exact integers of a sequence of expressions. -/
def exactInts : List Expr → List ℤ
  | [] => []
  | e :: es => exactInt e :: exactInts es

end

/-- The number that the value of a call counts for. -/
lemma numeric_dispatch {name : String} {values : List Value} {out out' : Sink} {v : Value}
    (h : dispatch name values out = (.ok v, out')) :
    Procedure.numeric v =
      if name = "+" then Procedure.sum values
      else if name = "*" then Procedure.product values
      else 0 := by
  unfold dispatch Procedure.ofName? at h
  by_cases hprint : name = "print"
  · subst hprint
    have hnone := Procedure.eq_none_of_printAll h
    simp [hnone, Procedure.numeric]
  by_cases hadd : name = "+"
  · subst hadd
    obtain ⟨hv, -⟩ := Prod.mk.inj h
    rw [if_pos rfl, ← Except.ok.inj hv, Procedure.numeric]
  by_cases hmul : name = "*"
  · subst hmul
    obtain ⟨hv, -⟩ := Prod.mk.inj h
    rw [if_neg hadd, if_pos rfl, ← Except.ok.inj hv, Procedure.numeric]
  · rw [if_neg hprint, if_neg hadd, if_neg hmul] at h
    obtain ⟨hv, -⟩ := Prod.mk.inj h
    rw [if_neg hadd, if_neg hmul, ← Except.ok.inj hv]
    rfl

mutual

/-- The value of an expression counts for the exact integer, reduced to a word. -/
theorem numeric_eval (e : Expr) {out out' : Sink} {v : Value} (h : e.eval out = (.ok v, out')) :
    Procedure.numeric v = Int64.ofInt e.exactInt := by
  match e with
  | .atom _ | .quoted _ => simp [eval] at h
  | .number n =>
    obtain ⟨hv, -⟩ := Prod.mk.inj h
    rw [← Except.ok.inj hv, exactInt, Int64.ofInt_toInt, Procedure.numeric]
  | .text _ | .list [] =>
    obtain ⟨hv, -⟩ := Prod.mk.inj h
    rw [← Except.ok.inj hv]
    rfl
  | .list (.atom name :: args) =>
    rw [eval_call] at h
    obtain ⟨values, mid, hargs, hcall⟩ := exists_of_andThen_eq_ok h
    have hvalues := numeric_evalArgs args hargs
    rw [numeric_dispatch hcall, exactInt, Procedure.sum_eq_ofInt hvalues,
      Procedure.product_eq_ofInt hvalues]
    split_ifs
    · rfl
    · rfl
    · rfl
  | .list [.number n] => exact numeric_eval (.number n) h
  | .list [.text s] => exact numeric_eval (.text s) h
  | .list [.quoted items] => exact numeric_eval (.quoted items) h
  | .list [.list items] => exact numeric_eval (.list items) h
  | .list (.number _ :: _ :: _) | .list (.text _ :: _ :: _) | .list (.quoted _ :: _ :: _)
  | .list (.list _ :: _ :: _) => simp [eval] at h

/-- So do the values of arguments. -/
theorem numeric_evalArgs (es : List Expr) {out out' : Sink} {vs : List Value}
    (h : evalArgs es out = (.ok vs, out')) :
    vs.map Procedure.numeric = (exactInts es).map Int64.ofInt := by
  match es with
  | [] =>
    obtain ⟨hvs, -⟩ := Prod.mk.inj h
    rw [← Except.ok.inj hvs]
    rfl
  | e :: es =>
    rw [evalArgs_cons] at h
    obtain ⟨v, mid, he, hrest⟩ := exists_of_andThen_eq_ok h
    obtain ⟨vs', last, hes, hcons⟩ := exists_of_andThen_eq_ok hrest
    obtain ⟨hvs, -⟩ := Prod.mk.inj hcons
    rw [← Except.ok.inj hvs, List.map_cons, numeric_eval e he, numeric_evalArgs es hes]
    rfl

end

/-- A word is the reduction of an integer exactly if the two are congruent. -/
lemma eq_ofInt_iff_modEq (w : Int64) (k : ℤ) :
    w = Int64.ofInt k ↔ w.toInt ≡ k [ZMOD 2 ^ 64] := by
  have hcast : (2 ^ 64 : ℤ) = ((2 ^ 64 : ℕ) : ℤ) := by decide
  rw [eq_comm, Int64.ofInt_eq_iff_bmod_eq_toInt, hcast, Int.ModEq]
  constructor
  · intro h
    rw [← h, Int.bmod_emod]
  · intro h
    have hw : w.toInt.bmod (2 ^ 64) = w.toInt := w.toInt_bmod_size
    rw [← hw, ← Int.emod_bmod k, ← h, Int.emod_bmod]

/-- If the value of an expression is a number, it is the only word that is congruent to
the exact integer of the expression. -/
theorem modEq_exactInt_iff {e : Expr} {out out' : Sink} {v : Int64}
    (h : e.eval out = (.ok (some (.number v)), out')) (w : Int64) :
    w.toInt ≡ e.exactInt [ZMOD 2 ^ 64] ↔ w = v := by
  have hv : v = Int64.ofInt e.exactInt := numeric_eval e h
  rw [hv, eq_ofInt_iff_modEq]

/-- A product of a sum that wraps around, with a text and an absent value among its terms,
and of a number in a list of its own. -/
theorem modEq_exactInt_iff_wrapped :
    (list [atom "*", list [atom "+", text "7", list [atom "print", number 1],
        number 9223372036854775807, number 2], list [number (-3)]]).eval {} =
        (.ok (some (.number 9223372036854775805)), { written := [0x31] }) ∧
      (list [atom "*", list [atom "+", text "7", list [atom "print", number 1],
        number 9223372036854775807, number 2], list [number (-3)]]).exactInt =
        -27670116110564327427 ∧
      ∀ w : Int64, w.toInt ≡ (list [atom "*", list [atom "+", text "7",
        list [atom "print", number 1], number 9223372036854775807, number 2],
        list [number (-3)]]).exactInt [ZMOD 2 ^ 64] ↔ w = 9223372036854775805 := by
  have h : (list [atom "*", list [atom "+", text "7", list [atom "print", number 1],
      number 9223372036854775807, number 2], list [number (-3)]]).eval {} =
      (.ok (some (.number 9223372036854775805)), { written := [0x31] }) := by
    decide +kernel
  exact ⟨h, by decide +kernel, modEq_exactInt_iff h⟩

end Expr

end TinyLisp
