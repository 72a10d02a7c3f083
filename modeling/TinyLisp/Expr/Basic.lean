import TinyLisp.Text.Decimal

/-!
# Expressions

A program is a tree of names, numbers, texts and lists.  A list that is quoted
stands for itself instead of a call.

`Expr.render` writes a tree back as source: items are separated by single spaces
and a quoted list has a quotation mark in front.  A text is written between double
quotes just as it is.
-/

namespace TinyLisp

/-- An expression. -/
inductive Expr
  /-- A name. -/
  | atom (name : String)
  /-- A number. -/
  | number (n : Int64)
  /-- A text. -/
  | text (s : String)
  /-- A list, which is a call if it starts with a name. -/
  | list (items : List Expr)
  /-- A quoted list. -/
  | quoted (items : List Expr)
  deriving Repr, Inhabited

/-- What an evaluation yields: an expression, or nothing. -/
abbrev Value := Option Expr

namespace Expr

/-! ### Equality -/

mutual

/-- Two expressions are the same tree. -/
def same : Expr → Expr → Bool
  | .atom a, .atom b => a = b
  | .number m, .number n => m = n
  | .text s, .text t => s = t
  | .list xs, .list ys => sameItems xs ys
  | .quoted xs, .quoted ys => sameItems xs ys
  | _, _ => false

/-- Two sequences of expressions are the same, item by item. -/
def sameItems : List Expr → List Expr → Bool
  | [], [] => true
  | x :: xs, y :: ys => same x y && sameItems xs ys
  | _, _ => false

end

mutual

theorem same_iff (x y : Expr) : same x y = true ↔ x = y := by
  cases x <;> cases y <;> simp [same, sameItems_iff]

theorem sameItems_iff (xs ys : List Expr) : sameItems xs ys = true ↔ xs = ys := by
  cases xs <;> cases ys <;> simp [sameItems, same_iff, sameItems_iff]

end

instance : DecidableEq Expr := fun x y =>
  decidable_of_iff _ (same_iff x y)

/-! ### Quoting -/

/-- A list can be quoted, and quoting it again changes nothing; nothing else can be
quoted. -/
def quote? : Expr → Option Expr
  | .list items => some (.quoted items)
  | .quoted items => some (.quoted items)
  | _ => none

/-! ### Rendering -/

mutual

/-- The source of an expression, as characters. -/
def chars : Expr → List Char
  | .atom name => name.toList
  | .number n => Decimal.write n.toInt
  | .text s => '\x22' :: s.toList ++ ['\x22']
  | .list items => '(' :: itemChars items ++ [')']
  | .quoted items => '\x27' :: '(' :: itemChars items ++ [')']

/-- The sources of expressions, separated by spaces. -/
def itemChars : List Expr → List Char
  | [] => []
  | [e] => chars e
  | e :: es => chars e ++ ' ' :: itemChars es

end

/-- The source of an expression. -/
def render (e : Expr) : String :=
  String.ofList e.chars

end Expr

end TinyLisp
