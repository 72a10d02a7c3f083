import TinyLisp.Proofs.Expr.Pushdown
import TinyLisp.Proofs.Token.Enclosing

/-!
# How open frames nest

The frames that the automaton has open are determined by the tokens it has read, up to
the items of the lists.  `Pushdown.Tracks` says how: the frames are the parts that enclose
what follows, as counted by `Token.enclosing`, and the innermost of them is a quote if the
last token is a quotation mark.

To see that this is kept, the frames are measured like the parts of a token sequence
(`Pushdown.heights`), by how much each of them would have to be closed.
-/

namespace TinyLisp

namespace Pushdown

/-! ### What the open frames say about the tokens read -/

/-- By how much each of the open frames would have to be closed, outermost first. -/
def heights : List Frame → List ℤ
  | [] => []
  | .list _ :: outer => (heights outer).map (· + 1) ++ [1]
  | .quote :: outer => heights outer ++ [0]

/-- The number of lists that are open. -/
def lists : List Frame → ℕ
  | [] => 0
  | .list _ :: outer => lists outer + 1
  | .quote :: outer => lists outer

@[simp] lemma length_heights (frames : List Frame) : (heights frames).length = frames.length := by
  induction frames with
  | nil => rfl
  | cons frame outer ih => cases frame <;> simp [heights, ih]

lemma heights_nonneg (frames : List Frame) : ∀ n ∈ heights frames, 0 ≤ n := by
  induction frames with
  | nil => simp [heights]
  | cons frame outer ih =>
    cases frame with
    | list items =>
      intro n hn
      simp only [heights, List.mem_append, List.mem_map, List.mem_singleton] at hn
      rcases hn with ⟨m, hm, rfl⟩ | rfl
      · have := ih m hm
        omega
      · omega
    | quote =>
      intro n hn
      simp only [heights, List.mem_append, List.mem_singleton] at hn
      rcases hn with hn | rfl
      · exact ih n hn
      · omega

/-- The frames without the quotes that are innermost. -/
def unquoted (frames : List Frame) : List Frame :=
  frames.dropWhile (· = .quote)

/-- The innermost quotes are the frames that lack nothing. -/
lemma filter_heights (frames : List Frame) :
    (heights frames).filter (· ≠ 0) = heights (unquoted frames) := by
  induction frames with
  | nil => rfl
  | cons frame outer ih =>
    cases frame with
    | list items =>
      refine List.filter_eq_self.mpr fun n hn => ?_
      have hpos := heights_nonneg outer
      simp only [heights, List.mem_append, List.mem_map, List.mem_singleton] at hn
      rcases hn with ⟨m, hm, rfl⟩ | rfl
      · have := hpos m hm
        simp
        omega
      · simp
    | quote =>
      rw [heights, List.filter_append, ih]
      simp [unquoted]

/-- The frames that are open when a step has been made. -/
def Turn.frames : Turn → List Frame
  | .stop _ _ => []
  | .go frames _ => frames

/-- Handing over an expression completes the innermost quotes and no list. -/
lemma frames_deliver {e : Expr} {rest : List Token} {frames : List Frame}
    (hfine : (deliver e rest frames).isFine = true) :
    heights (deliver e rest frames).frames = heights (unquoted frames) ∧
      lists (deliver e rest frames).frames = lists frames ∧
      (deliver e rest frames).frames.head? ≠ some .quote := by
  induction frames generalizing e with
  | nil => simp [deliver, Turn.frames, unquoted]
  | cons frame outer ih =>
    cases frame with
    | list items => simp [deliver, Turn.frames, unquoted, heights, lists]
    | quote =>
      unfold deliver at hfine ⊢
      cases hquote : e.quote? with
      | none => simp [hquote, Turn.isFine] at hfine
      | some q =>
        rw [hquote] at hfine
        exact ih hfine

/-- What can be quoted can be handed to any frames. -/
lemma isFine_deliver_of_quote {e : Expr} (h : e.quote?.isSome) (rest : List Token)
    (frames : List Frame) : (deliver e rest frames).isFine = true := by
  induction frames generalizing e with
  | nil => rfl
  | cons frame outer ih =>
    cases frame with
    | list items => rfl
    | quote =>
      unfold deliver
      cases hquote : e.quote? with
      | none => simp [hquote] at h
      | some q =>
        refine ih ?_
        cases e with
        | list items =>
          obtain rfl := Option.some.inj hquote
          rfl
        | quoted items =>
          obtain rfl := Option.some.inj hquote
          rfl
        | _ => simp [Expr.quote?] at hquote

/-- Anything can be handed to frames whose innermost is no quote. -/
lemma isFine_deliver_of_ne {frames : List Frame} (h : frames.head? ≠ some .quote) (e : Expr)
    (rest : List Token) : (deliver e rest frames).isFine = true := by
  cases frames with
  | nil => rfl
  | cons frame outer =>
    cases frame with
    | list items => rfl
    | quote => simp at h

/-- The tokens read so far leave the frames open: they are enclosed in as many parts as
there are frames, have as many lists to close, and end with a quotation mark if that is
the innermost frame. -/
structure Tracks (before : List Token) (frames : List Frame) : Prop where
  heights_eq : Token.heights before = heights frames
  count_eq : Token.count .lparen before = Token.count .rparen before + lists frames
  quote_iff : Token.EndsWith .quote before ↔ frames.head? = some .quote

namespace Tracks

variable {before : List Token} {frames : List Frame} {t : Token}

lemma start : Tracks [] [] :=
  ⟨rfl, rfl, by simp⟩

/-- There are as many open frames as enclosing parts. -/
lemma enclosing_eq (h : Tracks before frames) : Token.enclosing before = frames.length := by
  rw [← Token.length_heights, h.heights_eq, length_heights]

/-- A token that is part of a leaf changes nothing. -/
lemma concat (h : Tracks before frames) (hquote : frames.head? ≠ some .quote)
    (ht : t.kind ∉ [Token.Kind.lparen, .rparen, .quote]) : Tracks (before ++ [t]) frames := by
  simp only [List.mem_cons, List.not_mem_nil, or_false, not_or] at ht
  refine ⟨?_, ?_, ?_⟩
  · rw [Token.heights_concat_of_ne ht.1 ht.2.1, if_neg ht.2.2, List.append_nil, h.heights_eq]
  · simp [ht, h.count_eq]
  · simp [ht, hquote]

/-- Neither does handing an expression to a list, or to nothing. -/
lemma deliver (h : Tracks before frames) (hquote : frames.head? ≠ some .quote) (e : Expr)
    (rest : List Token) : Tracks before (deliver e rest frames).frames := by
  obtain ⟨hheights, hlists, hhead⟩ := frames_deliver (isFine_deliver_of_ne hquote e rest)
  have hunquoted : unquoted frames = frames := by
    cases frames with
    | nil => rfl
    | cons frame outer => cases frame <;> simp_all [unquoted]
  refine ⟨?_, ?_, ?_⟩
  · rw [hheights, hunquoted, h.heights_eq]
  · rw [hlists, h.count_eq]
  · simp [h.quote_iff, hquote, hhead]

/-- An opening parenthesis opens a list. -/
lemma concat_lparen (h : Tracks before frames) (ht : t.kind = .lparen) :
    Tracks (before ++ [t]) (.list [] :: frames) := by
  refine ⟨?_, ?_, ?_⟩
  · rw [Token.heights_concat_lparen ht (h.heights_eq ▸ heights_nonneg frames), h.heights_eq]
    rfl
  · simp [ht, h.count_eq, lists]
    omega
  · simp [ht]

/-- A quotation mark opens a quote. -/
lemma concat_quote (h : Tracks before frames) (ht : t.kind = .quote) :
    Tracks (before ++ [t]) (.quote :: frames) := by
  refine ⟨?_, ?_, ?_⟩
  · rw [Token.heights_concat_of_ne (by simp [ht]) (by simp [ht]), if_pos ht, h.heights_eq]
    rfl
  · simp [ht, h.count_eq, lists]
  · simp [ht]

/-- A closing parenthesis completes a list and the quotes before it. -/
lemma concat_rparen {items : List Expr} {outer : List Frame} {e : Expr} {rest : List Token}
    (h : Tracks before (.list items :: outer)) (ht : t.kind = .rparen)
    (hfine : (Pushdown.deliver e rest outer).isFine = true) :
    Tracks (before ++ [t]) (Pushdown.deliver e rest outer).frames := by
  obtain ⟨hheights, hlists, hhead⟩ := frames_deliver hfine
  refine ⟨?_, ?_, ?_⟩
  · have hlower : (heights (.list items :: outer)).map (· - 1) = heights outer ++ [0] := by
      simp [heights, Function.comp_def]
    rw [Token.heights_concat_rparen ht, h.heights_eq, hlower, List.filter_append, filter_heights,
      hheights]
    simp
  · have hcount := h.count_eq
    simp [ht, hlists, lists] at hcount ⊢
    omega
  · simp [ht, hhead]

end Tracks

end Pushdown

end TinyLisp
