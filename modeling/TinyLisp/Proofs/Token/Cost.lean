import TinyLisp.Proofs.Token.Tokens

/-!
# Tokens do not depend on their cost

An attempt to get a character makes a reader consume some bytes.  How many these are
has no influence on what is read.  `Source.free` is a source whose attempts have the
same outcomes and cost nothing.  Every operation on sources gives the same result on
it, and leaves the free form of what it leaves otherwise, up to the reading of tokens
(`token_free`, `tokens_free`).
-/

namespace TinyLisp

/-- The same outcome, for which nothing is consumed. -/
def Pull.free : Pull → Pull
  | .char c _ => .char c 0
  | .gap _ => .gap 0

@[simp] lemma Pull.char?_free (a : Pull) : a.free.char? = a.char? := by
  cases a <;> rfl

@[simp] lemma Pull.holds_free (p : Char → Bool) (a : Pull) : a.free.holds p = a.holds p := by
  cases a <;> rfl

@[simp] lemma Pull.cost_free (a : Pull) : a.free.cost = 0 := by
  cases a <;> rfl

/-- Free attempts cost nothing together. -/
@[simp] lemma Pull.total_map_free (pulls : List Pull) : Pull.total (pulls.map Pull.free) = 0 := by
  unfold Pull.total
  induction pulls with
  | nil => rfl
  | cons a pulls ih => simpa using ih

namespace Source

/-- The same attempts, none of which consumes anything. -/
def free (s : Source) : Source :=
  { pulls := s.pulls.map Pull.free }

/-! ### One operation at a time -/

@[simp] lemma front?_free (s : Source) : s.free.front? = s.front? := by
  obtain ⟨pulls, n⟩ := s
  cases pulls <;> simp [free, front?]

@[simp] lemma skip_free (s : Source) : s.free.skip = s.skip.free := by
  obtain ⟨pulls, n⟩ := s
  cases pulls <;> simp [free, skip]

@[simp] lemma settle_free (s : Source) : s.free.settle = s.settle.free := by
  obtain ⟨pulls, n⟩ := s
  cases pulls with
  | nil => rfl
  | cons a pulls => cases a <;> rfl

/-- The attempts that yield a run of a class of characters are the same. -/
lemma takeWhile_free (p : Char → Bool) (s : Source) :
    s.free.pulls.takeWhile (·.holds p) = (s.pulls.takeWhile (·.holds p)).map Pull.free := by
  simp [free, List.takeWhile_map, Function.comp_def]

lemma dropWhile_free (p : Char → Bool) (s : Source) :
    s.free.pulls.dropWhile (·.holds p) = (s.pulls.dropWhile (·.holds p)).map Pull.free := by
  simp [free, List.dropWhile_map, Function.comp_def]

/-- The characters of a run are the same. -/
lemma filterMap_free (pulls : List Pull) :
    (pulls.map Pull.free).filterMap Pull.char? = pulls.filterMap Pull.char? := by
  have hchars : Pull.char? ∘ Pull.free = Pull.char? := funext Pull.char?_free
  rw [List.filterMap_map, hchars]

lemma span_free (p : Char → Bool) (s : Source) :
    s.free.span p = ((s.span p).1, (s.span p).2.free) := by
  unfold span
  rw [takeWhile_free, dropWhile_free]
  dsimp only
  rw [filterMap_free, Pull.total_map_free, ← settle_free]
  rfl

lemma through_free (p : Char → Bool) (s : Source) :
    s.free.through p = ((s.through p).1, (s.through p).2.free) := by
  unfold through
  rw [takeWhile_free, dropWhile_free]
  dsimp only
  rw [filterMap_free, Pull.total_map_free, ← skip_free]
  rfl

/-- A string literal is the same, whatever has been consumed before it. -/
lemma literal_free (text : List Char) (n : ℕ) (pulls : List Pull) :
    literal text 0 (pulls.map Pull.free) =
      { text := (literal text n pulls).text, closed := (literal text n pulls).closed,
        rest := (literal text n pulls).rest.free } := by
  fun_induction literal text n pulls with
  | case1 text n => rfl
  | case2 text n k rest => rfl
  | case3 text n k rest =>
    rw [List.map_cons, Pull.free, literal.eq_def]
    simp [free]
  | case4 text n k hquote => rfl
  | case5 text n k hquote j rest ih =>
    rw [List.map_cons, List.map_cons, Pull.free, Pull.free, literal.eq_def]
    simpa using ih
  | case6 text n k hquote d j rest ih =>
    rw [List.map_cons, List.map_cons, Pull.free, Pull.free, literal.eq_def]
    simpa using ih
  | case7 text n c k rest hquote hslash ih =>
    rw [List.map_cons, Pull.free, literal.eq_def]
    simpa [hquote, hslash] using ih

/-! ### Tokens -/

lemma tokenFrom_free (c : Char) (s : Source) :
    tokenFrom c s.free = ((tokenFrom c s).1, (tokenFrom c s).2.free) := by
  have hliteral := literal_free [c] s.consumed s.pulls
  unfold tokenFrom
  split
  · rfl
  · split_ifs
    · rw [span_free]
    · rw [through_free]
    · exact Prod.ext (by simp [free, hliteral]) (by simp [free, hliteral])
    · rw [span_free]

/-- The next token is the same, and so is what it leaves. -/
theorem token_free (s : Source) : s.free.token = (s.token.1, s.token.2.free) := by
  unfold token
  rw [span_free]
  dsimp only
  rw [front?_free]
  cases (s.span isSpace).2.front? with
  | none => rfl
  | some c =>
    rw [skip_free]
    exact tokenFrom_free c _

/-- All tokens are the same. -/
theorem tokens_free (s : Source) : s.free.tokens.1 = s.tokens.1 := by
  induction s using tokens_induction with
  | ended s hend =>
    have hfree : s.free.token.1.isEnd = true := by rw [token_free]; exact hend
    rw [tokens_of_isEnd hend, tokens_of_isEnd hfree]
  | more s hend ih =>
    have hfree : s.free.token.1.isEnd = false := by rw [token_free]; exact hend
    rw [tokens_of_not_isEnd hend, tokens_of_not_isEnd hfree, token_free]
    dsimp only
    rw [ih]

end Source

end TinyLisp
