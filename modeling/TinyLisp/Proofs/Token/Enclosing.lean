import Mathlib.Data.List.Infix
import TinyLisp.Token.Basic

/-!
# What encloses a token

The lists and quotes that enclose a place in a token sequence can be counted without
parsing (`Token.enclosing`): they are the parts of the sequence that start with an
opening parenthesis or a quotation mark, reach up to that place, and have not been
closed on the way.

A sequence is read token by token, so the counts are needed for one further token.
What decides is by how much each of the open parts would have to be closed: their
`Token.heights`.  An opening parenthesis raises them all by one and adds a new part, a
closing one lowers them all by one and removes those that are then at zero.
-/

namespace TinyLisp.Token

/-! ### Counting and enclosing -/

/-- The number of tokens of a kind. -/
def count (kind : Kind) (ts : List Token) : ℕ :=
  ts.countP (·.kind = kind)

/-- The last token is of the given kind. -/
def EndsWith (kind : Kind) (ts : List Token) : Prop :=
  ts.getLast?.map Token.kind = some kind

/-- The tokens open a list, and close all that they open. -/
def isClosed (ts : List Token) : Bool :=
  0 < count .lparen ts ∧ count .lparen ts = count .rparen ts

/-- The tokens start with a parenthesis or a quotation mark that none of the following
tokens completes: no part of the sequence from its start on is closed. -/
def isOpen (ts : List Token) : Bool :=
  (ts.head?.any fun t => t.kind = .lparen ∨ t.kind = .quote) && ts.inits.all (!isClosed ·)

/-- The number of lists and quotes that enclose what stands behind the tokens. -/
def enclosing (before : List Token) : ℕ :=
  before.tails.countP isOpen

/-! ### Tokens one at a time -/

@[simp] lemma count_nil (kind : Kind) : count kind [] = 0 := rfl

@[simp] lemma count_append (kind : Kind) (ts us : List Token) :
    count kind (ts ++ us) = count kind ts + count kind us :=
  List.countP_append

@[simp] lemma count_cons (kind : Kind) (t : Token) (ts : List Token) :
    count kind (t :: ts) = count kind ts + if t.kind = kind then 1 else 0 := by
  simp [count, List.countP_cons]

@[simp] lemma not_endsWith_nil (kind : Kind) : ¬EndsWith kind [] := by
  simp [EndsWith]

@[simp] lemma endsWith_concat (kind : Kind) (ts : List Token) (t : Token) :
    EndsWith kind (ts ++ [t]) ↔ t.kind = kind := by
  simp [EndsWith]

lemma endsWith_iff (kind : Kind) (ts : List Token) :
    EndsWith kind ts ↔ ∃ us t, ts = us ++ [t] ∧ t.kind = kind := by
  rcases List.eq_nil_or_concat ts with rfl | ⟨us, t, rfl⟩
  · simp
  · rw [List.concat_eq_append, endsWith_concat]
    constructor
    · intro h
      exact ⟨us, t, rfl, h⟩
    · rintro ⟨vs, u, heq, hu⟩
      obtain ⟨-, hlast⟩ := List.append_inj' heq rfl
      rwa [List.singleton_inj.mp hlast]

/-- What stands in front does not matter to the last token. -/
lemma EndsWith.append_left {kind : Kind} {ts : List Token} (h : EndsWith kind ts)
    (us : List Token) : EndsWith kind (us ++ ts) := by
  obtain ⟨init, t, rfl, ht⟩ := (endsWith_iff _ _).mp h
  rwa [← List.append_assoc, endsWith_concat]

/-- How many more lists are opened than closed. -/
def excess (ts : List Token) : ℤ :=
  count .lparen ts - count .rparen ts

/-- The parts that enclose what follows, each up to the end, longest first. -/
def opens (before : List Token) : List (List Token) :=
  before.tails.filter isOpen

lemma length_opens (before : List Token) : (opens before).length = enclosing before :=
  List.countP_eq_length_filter.symm

/-- A part stays open until it is closed. -/
lemma isOpen_concat {ts : List Token} (hne : ts ≠ []) (t : Token) :
    isOpen (ts ++ [t]) = (isOpen ts && !isClosed (ts ++ [t])) := by
  obtain ⟨u, us, rfl⟩ := List.exists_cons_of_ne_nil hne
  simp [isOpen, List.inits_append, Bool.and_assoc]

lemma opens_cons (t : Token) (ts : List Token) :
    opens (t :: ts) = if isOpen (t :: ts) then (t :: ts) :: opens ts else opens ts := by
  rw [opens, List.tails_cons, List.filter_cons]
  rfl

/-- A further token closes some of the open parts and may open a new one. -/
lemma opens_concat (before : List Token) (t : Token) :
    opens (before ++ [t]) =
      ((opens before).filter fun part => !isClosed (part ++ [t])).map (· ++ [t]) ++
        opens [t] := by
  induction before with
  | nil => rfl
  | cons u us ih =>
    rw [List.cons_append, opens_cons, opens_cons, ← List.cons_append,
      isOpen_concat (List.cons_ne_nil u us), ih]
    cases isOpen (u :: us) with
    | false => rfl
    | true =>
      cases hclosed : isClosed (u :: us ++ [t]) with
      | false => simp_all
      | true => simp_all

/-- An open part is not closed. -/
lemma isClosed_of_mem_opens {before part : List Token} (h : part ∈ opens before) :
    isClosed part = false := by
  have hopen := (List.mem_filter.mp h).2
  simp only [isOpen, Bool.and_eq_true, List.all_eq_true] at hopen
  simpa using hopen.2 part (by simp)

/-- By how much each of the open parts would have to be closed, outermost first. -/
def heights (before : List Token) : List ℤ :=
  (opens before).map excess

lemma length_heights (before : List Token) : (heights before).length = enclosing before := by
  rw [heights, List.length_map, length_opens]

lemma excess_concat (ts : List Token) (t : Token) :
    excess (ts ++ [t]) = excess ts + excess [t] := by
  simp only [excess, count_append]
  omega

lemma heights_concat (before : List Token) (t : Token) :
    heights (before ++ [t]) =
      ((opens before).filter fun part => !isClosed (part ++ [t])).map (excess · + excess [t]) ++
        heights [t] := by
  rw [heights, opens_concat, List.map_append, List.map_map]
  congr 1
  exact List.map_congr_left fun part _ => excess_concat part t

/-- A token that closes no open part raises all of them alike. -/
lemma heights_concat_of_not_isClosed {before : List Token} {t : Token}
    (h : ∀ part ∈ opens before, isClosed (part ++ [t]) = false) :
    heights (before ++ [t]) = (heights before).map (· + excess [t]) ++ heights [t] := by
  rw [heights_concat, List.filter_eq_self.mpr fun part hpart => by simp [h part hpart]]
  simp [heights, Function.comp_def]

/-- A token that is no parenthesis closes nothing. -/
lemma heights_concat_of_ne {t : Token} (hl : t.kind ≠ .lparen) (hr : t.kind ≠ .rparen)
    (before : List Token) :
    heights (before ++ [t]) = heights before ++ if t.kind = .quote then [0] else [] := by
  rw [heights_concat_of_not_isClosed]
  · congr 1
    · simp [excess, hl, hr]
    · by_cases ht : t.kind = .quote <;> simp [heights, opens, isOpen, isClosed, excess, ht, hl]
  · intro part hpart
    have hclosed := isClosed_of_mem_opens hpart
    simpa [isClosed, hl, hr] using hclosed

/-- An opening parenthesis raises every open part. -/
lemma heights_concat_lparen {before : List Token} {t : Token} (ht : t.kind = .lparen)
    (hnonneg : ∀ n ∈ heights before, 0 ≤ n) :
    heights (before ++ [t]) = (heights before).map (· + 1) ++ [1] := by
  rw [heights_concat_of_not_isClosed]
  · congr 1
    · simp [excess, ht]
    · simp [heights, opens, isOpen, isClosed, excess, ht]
  · intro part hpart
    have hexcess : 0 ≤ excess part := hnonneg _ (List.mem_map_of_mem hpart)
    unfold excess at hexcess
    simp only [isClosed, count_append, count_cons, count_nil, ht, decide_eq_false_iff_not]
    simp
    omega

/-- A closing parenthesis closes the parts that lack just one. -/
lemma heights_concat_rparen {t : Token} (ht : t.kind = .rparen) (before : List Token) :
    heights (before ++ [t]) = ((heights before).map (· - 1)).filter (· ≠ 0) := by
  have hclosed : ∀ part, isClosed (part ++ [t]) = decide (excess part - 1 = 0) := by
    intro part
    rw [isClosed, decide_eq_decide, excess, count_append, count_append]
    simp [ht]
    omega
  have hnew : heights [t] = [] := by simp [heights, opens, isOpen, ht]
  have hexcess : excess [t] = -1 := by simp [excess, ht]
  rw [heights_concat, hnew, hexcess, List.append_nil, heights, List.map_map, List.filter_map]
  simp [hclosed, Function.comp_def, Int.sub_eq_add_neg]

end TinyLisp.Token
