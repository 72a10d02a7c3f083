import Mathlib.Data.List.Chain
import TinyLisp.Expr.Basic
import TinyLisp.Proofs.Token.Spelling

/-!
# The shape of expressions

What can be said of a tree as a whole: which expressions it is made of (`Expr.nodes`)
and how many levels it has (`Expr.levels`).  A quoted list has one level more than a
list, because a parser has to keep the quotation mark in mind as well.

A tree is well-formed (`Expr.WellFormed`) if its rendering can be read back.
-/

namespace TinyLisp.Expr

/-- The items of a list, quoted or not. -/
def items : Expr → List Expr
  | .list items => items
  | .quoted items => items
  | _ => []

mutual

/-- The expression and all that it contains. -/
def nodes : Expr → List Expr
  | .list items => .list items :: nodesAll items
  | .quoted items => .quoted items :: nodesAll items
  | e => [e]

/-- The expressions of a sequence and all that they contain. -/
def nodesAll : List Expr → List Expr
  | [] => []
  | e :: es => nodes e ++ nodesAll es

end

mutual

/-- The number of levels that a parser has to go down. -/
def levels : Expr → ℕ
  | .list items => 1 + levelsAll items
  | .quoted items => 2 + levelsAll items
  | _ => 1

/-- The greatest number of levels in a sequence of expressions. -/
def levelsAll : List Expr → ℕ
  | [] => 0
  | e :: es => max (levels e) (levelsAll es)

end

/-- A name that is read back as it is written. -/
def IsName (name : String) : Prop :=
  name = "-" ∨
    name ≠ "" ∧ (∀ c ∈ name.toList.head?, ¬(c.isDigit ∨ c = '-' ∨ c = '\x27')) ∧
      ∀ c ∈ name.toList, c ∉ delimiters

/-- Nowhere in the sequence does the name `-` stand before a number that it would make
negative. -/
def Apart (es : List Expr) : Prop :=
  es.IsChain fun x y => x = .atom "-" → ∀ n, y = .number n → n.toInt < 0

/-- The expression `y` may follow `x` in a list: a positive number behind the name `-` would
always be read as a negative one. -/
def MayPrecede (x y : Expr) : Prop :=
  x = .atom "-" → ∀ n, y = .number n → n.toInt ≤ 0

/-- A tree whose names and texts are read back as they are written. -/
structure Plain (e : Expr) : Prop where
  names : ∀ name, .atom name ∈ e.nodes → IsName name
  texts : ∀ s, .text s ∈ e.nodes → '\x22' ∉ s.toList ∧ '\\' ∉ s.toList

/-- A tree whose rendering can be read back. -/
structure WellFormed (e : Expr) : Prop where
  /-- The names are read back as they are written. -/
  names : ∀ name, .atom name ∈ e.nodes → IsName name
  /-- The texts hold nothing that would have to be escaped. -/
  texts : ∀ s, .text s ∈ e.nodes → '\x22' ∉ s.toList ∧ '\\' ∉ s.toList
  /-- Items do not run into each other. -/
  apart : ∀ x ∈ e.nodes, Apart x.items
  /-- The tree is not too deep. -/
  levels_le : e.levels ≤ 256

/-! ### Trees and their items -/

lemma nodes_eq (e : Expr) : e.nodes = e :: nodesAll e.items := by
  cases e <;> rfl

lemma mem_nodes_self (e : Expr) : e ∈ e.nodes := by
  rw [nodes_eq]
  exact List.mem_cons_self

/-- A sequence contains what its expressions contain. -/
lemma mem_nodesAll {x : Expr} {es : List Expr} :
    x ∈ nodesAll es ↔ ∃ e ∈ es, x ∈ e.nodes := by
  induction es with
  | nil => simp [nodesAll]
  | cons e es ih => simp [nodesAll, ih]

/-- No expression of a sequence has more levels than the sequence. -/
lemma levels_le_levelsAll {e : Expr} {es : List Expr} (h : e ∈ es) :
    e.levels ≤ levelsAll es := by
  induction es with
  | nil => simp at h
  | cons x xs ih =>
    rw [levelsAll]
    rcases List.mem_cons.mp h with rfl | h
    · exact Nat.le_max_left _ _
    · exact (ih h).trans (Nat.le_max_right _ _)

/-- The levels of a sequence are bounded if those of its expressions are. -/
lemma levelsAll_le {es : List Expr} {n : ℕ} (h : ∀ e ∈ es, e.levels ≤ n) :
    levelsAll es ≤ n := by
  induction es with
  | nil => exact Nat.zero_le n
  | cons x xs ih =>
    rw [levelsAll, Nat.max_le]
    exact ⟨h x List.mem_cons_self, ih fun e he => h e (List.mem_cons_of_mem x he)⟩

/-- Every level is left behind on the way to an item. -/
lemma levels_item_lt {e x : Expr} (h : x ∈ e.items) : x.levels < e.levels := by
  have hle := levels_le_levelsAll h
  cases e with
  | list items =>
    rw [levels]
    exact Nat.lt_one_add_iff.mpr hle
  | quoted items =>
    have hle : x.levels ≤ levelsAll items := hle
    rw [levels]
    omega
  | _ => simp [items] at h

/-- A tree contains what its items contain. -/
lemma nodes_subset_of_mem_items {e x : Expr} (hx : x ∈ e.items) : x.nodes ⊆ e.nodes := by
  intro y hy
  rw [e.nodes_eq]
  exact List.mem_cons_of_mem e (mem_nodesAll.mpr ⟨x, hx, hy⟩)

/-- The items of a plain tree are plain. -/
lemma Plain.of_mem_items {e x : Expr} (h : e.Plain) (hx : x ∈ e.items) : x.Plain := by
  have hsubset := nodes_subset_of_mem_items hx
  constructor
  · exact fun name hname => h.names name (hsubset hname)
  · exact fun s hs => h.texts s (hsubset hs)

lemma WellFormed.plain {e : Expr} (h : e.WellFormed) : e.Plain :=
  ⟨h.names, h.texts⟩

/-- Where items do not run into each other, none of them is a positive number behind `-`. -/
lemma Apart.mayPrecede {es : List Expr} (h : Apart es) : es.IsChain MayPrecede :=
  h.imp fun _ _ hsign hminus n hn => Int.le_of_lt (hsign hminus n hn)

end TinyLisp.Expr
