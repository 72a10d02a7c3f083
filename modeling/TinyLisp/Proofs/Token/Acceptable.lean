import Mathlib.Algebra.Group.Nat.Defs
import Mathlib.Data.List.Induction
import TinyLisp.Proofs.Token.Enclosing
import TinyLisp.Text.Decimal

/-!
# Acceptable token sequences

Which token sequences are scripts?  `Token.Acceptable` answers without any recursion
over expressions: it counts parentheses, looks at neighbours, and asks how many lists
and quotes enclose a token.

Tokens are read from left to right, and so it matters that all of this can be decided
token by token.  `Token.Admits` says that a token may stand behind the tokens before it.
A sequence is acceptable if each of its tokens may stand where it stands and nothing is
left open at its end (`acceptable_iff`).
-/

namespace TinyLisp

namespace Token

/-- The token starts an expression if it stands behind the tokens `before`. -/
def Starts (before : List Token) (t : Token) : Prop :=
  t.kind ∈ [Kind.atom, .minus, .string, .lparen, .quote] ∨
    t.kind = .number ∧ ¬EndsWith .minus before

/-- A sequence of tokens that is a script. -/
structure Acceptable (ts : List Token) : Prop where
  /-- There are no comments. -/
  no_comment : ∀ t ∈ ts, t.kind ≠ .comment
  /-- Nowhere are more parentheses closed than opened. -/
  closed_le : ∀ before, before <+: ts → count .rparen before ≤ count .lparen before
  /-- As many parentheses are closed as opened. -/
  closed_eq : count .rparen ts = count .lparen ts
  /-- A quotation mark stands before a list or a quotation mark. -/
  operand : ∀ before t after, ts = before ++ t :: after → t.kind = .quote →
    ∃ u ∈ after.head?, u.kind = .quote ∨ u.kind = .lparen
  /-- Numbers are in range. -/
  in_range : ∀ before t after, ts = before ++ t :: after → t.kind = .number →
    (EndsWith .minus before → Decimal.value t.text.toList ≤ 2 ^ 63) ∧
    (¬EndsWith .minus before → Decimal.value t.text.toList ≤ 2 ^ 63 - 1)
  /-- No expression starts too deep. -/
  not_deep : ∀ before t after, ts = before ++ t :: after → Starts before t →
    enclosing before ≤ 255

/-! ### Accepting tokens one at a time -/

/-- The token may stand behind the tokens `before`. -/
structure Admits (before : List Token) (t : Token) : Prop where
  no_comment : t.kind ≠ .comment
  closed_lt : t.kind = .rparen → count .rparen before < count .lparen before
  operand : EndsWith .quote before → t.kind = .quote ∨ t.kind = .lparen
  in_range : t.kind = .number →
    (EndsWith .minus before → Decimal.value t.text.toList ≤ 2 ^ 63) ∧
    (¬EndsWith .minus before → Decimal.value t.text.toList ≤ 2 ^ 63 - 1)
  not_deep : Starts before t → enclosing before ≤ 255

/-- Each of the tokens may stand where it stands. -/
def Admitted (ts : List Token) : Prop :=
  ∀ before t after, ts = before ++ t :: after → Admits before t

lemma admitted_nil : Admitted [] := by
  intro before t after h
  simp at h

lemma admitted_concat {ts : List Token} {t : Token} :
    Admitted (ts ++ [t]) ↔ Admitted ts ∧ Admits ts t := by
  constructor
  · intro h
    refine ⟨fun before u after hts => h before u (after ++ [t]) ?_, h ts t [] rfl⟩
    rw [hts]
    simp
  · rintro ⟨hts, ht⟩ before u after heq
    rcases List.eq_nil_or_concat after with rfl | ⟨after, v, rfl⟩
    · obtain ⟨rfl, hu⟩ := List.append_inj' heq rfl
      obtain rfl := List.singleton_inj.mp hu
      exact ht
    · rw [List.concat_eq_append, ← List.cons_append, ← List.append_assoc] at heq
      exact hts before u after (List.append_inj' heq rfl).1

/-- A sequence is acceptable if its tokens are, one by one, and nothing is left open. -/
lemma acceptable_iff (ts : List Token) :
    Acceptable ts ↔
      Admitted ts ∧ count .rparen ts = count .lparen ts ∧ ¬EndsWith .quote ts := by
  constructor
  · intro h
    refine ⟨fun before t after hts => ⟨?_, ?_, ?_, h.in_range _ _ _ hts, h.not_deep _ _ _ hts⟩,
      h.closed_eq, ?_⟩
    · exact h.no_comment t (by rw [hts]; simp)
    · intro ht
      have hle := h.closed_le (before ++ [t]) ⟨after, by rw [hts]; simp⟩
      simp [ht] at hle
      omega
    · intro hquote
      obtain ⟨before, q, rfl, hq⟩ := (endsWith_iff _ _).mp hquote
      obtain ⟨u, hu, hkind⟩ := h.operand before q (t :: after) (by rw [hts]; simp) hq
      obtain rfl : t = u := by simpa using hu
      exact hkind
    · intro hquote
      obtain ⟨before, q, rfl, hq⟩ := (endsWith_iff _ _).mp hquote
      obtain ⟨u, hu, -⟩ := h.operand before q [] rfl hq
      simp at hu
  · rintro ⟨hadmitted, heq, hquote⟩
    refine ⟨?_, ?_, heq, ?_, fun before t after hts => (hadmitted before t after hts).in_range,
      fun before t after hts => (hadmitted before t after hts).not_deep⟩
    · intro t ht
      obtain ⟨before, after, hts⟩ := List.append_of_mem ht
      exact (hadmitted before t after hts).no_comment
    · intro before hbefore
      induction before using List.reverseRecOn with
      | nil => simp
      | append_singleton before t ih =>
        obtain ⟨after, hts⟩ := hbefore
        have ht := hadmitted before t after (by rw [← hts]; simp)
        have hle := ih ⟨t :: after, by rw [← hts]; simp⟩
        by_cases hkind : t.kind = .rparen
        · have hlt := ht.closed_lt hkind
          simp [hkind]
          omega
        · simp [hkind]
          omega
    · intro before t after hts ht
      cases after with
      | nil => exact absurd (by rw [hts]; simpa using ht) hquote
      | cons u us =>
        have hu := hadmitted (before ++ [t]) u us (by rw [hts]; simp)
        exact ⟨u, rfl, hu.operand (by simpa using ht)⟩

end Token

end TinyLisp
