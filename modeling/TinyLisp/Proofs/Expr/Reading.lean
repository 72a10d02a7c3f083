import TinyLisp.Proofs.Expr.Pending
import TinyLisp.Proofs.Token.Position

/-!
# What a parser has read

`Parser.HasRead s used p` says that the parser `p` has taken the tokens `used` off the
source `s`, and has read one more token if it has put one back.  What a step can do to the
tokens is said once, in `Parser.Reads`, and followed along the steps of an expression.

In the end the parser has taken the tokens of the expression and has put nothing back, with
one exception: behind a bare minus sign it had to look at another token
(`Parser.HasRead.expression`).
-/

namespace TinyLisp

namespace Parser

/-! ### Handing over an expression -/

/-- Handing over an expression changes nothing but what is open. -/
lemma exists_parser_deliver (p : Parser) (x : Expr) (frames : List Frame) :
    ∃ left, (p.deliver x frames).parser = { p with frames := left } := by
  induction frames generalizing x with
  | nil => exact ⟨[], rfl⟩
  | cons frame outer ih =>
    cases frame with
    | list items => exact ⟨_, rfl⟩
    | quote =>
      unfold deliver
      cases x.quote? with
      | some y => exact ih y
      | none => exact ⟨[], rfl⟩

/-- An expression that is complete when it has been handed over is the one that was handed
over, or a quotation. -/
lemma deliver_eq_stop {p q : Parser} {x e : Expr} {frames : List Frame}
    (h : p.deliver x frames = .stop (.ok e) q) :
    q.ahead = p.ahead ∧ (e = x ∨ x.quote? ≠ none ∧ ∀ name, e ≠ .atom name) := by
  induction frames generalizing x with
  | nil =>
    simp only [deliver, Progress.stop.injEq, Except.ok.injEq] at h
    obtain ⟨rfl, rfl⟩ := h
    exact ⟨rfl, Or.inl rfl⟩
  | cons frame outer ih =>
    cases frame with
    | list items => simp [deliver] at h
    | quote =>
      unfold deliver at h
      cases hx : x.quote? with
      | none => simp [hx, fail] at h
      | some y =>
        rw [hx] at h
        obtain ⟨hahead, hy⟩ := ih h
        refine ⟨hahead, Or.inr ⟨by simp, ?_⟩⟩
        rcases hy with rfl | ⟨-, hname⟩
        · rintro name rfl
          cases x <;> simp [Expr.quote?] at hx
        · exact hname

/-! ### What a step can do -/

/-- What a step that does not fail does to the tokens. -/
inductive Reads (p : Parser) : Progress → Prop
  /-- It reads a token that completes an expression. -/
  | item {x : Expr} {frames : List Frame} (hend : p.next.1.isEnd = false)
      (hx : ∀ name, x = .atom name → p.next.1.kind = .atom ∧ p.next.1.text = name) :
      Reads p (p.next.2.deliver x frames)
  /-- It reads a token that opens something. -/
  | opening {frames : List Frame} (hend : p.next.1.isEnd = false) :
      Reads p (.go { p.next.2 with frames })
  /-- It reads a minus sign and a number. -/
  | negative {n : Int64} {frames : List Frame} (hm : p.next.1.kind = .minus)
      (ht : p.next.2.next.1.kind = .number) :
      Reads p (p.next.2.next.2.deliver (.number n) frames)
  /-- It reads a minus sign and looks at the token behind it. -/
  | minus {frames : List Frame} (hm : p.next.1.kind = .minus) :
      Reads p (p.next.2.peek.deliver (.atom p.next.1.text) frames)

/-- Starting an expression reads tokens in one of these ways. -/
lemma reads_start {p : Parser} (h : (p.next.2.start p.next.1).isFine = true) :
    p.Reads (p.next.2.start p.next.1) := by
  have hend : p.next.1.isEnd = false := by
    by_contra hend
    rw [start_of_isEnd (by simpa using hend)] at h
    exact absurd h (by decide)
  unfold start at h ⊢
  cases hkind : p.next.1.kind with
  | atom => exact .item hend fun name hname => ⟨hkind, Expr.atom.inj hname⟩
  | number =>
    rw [hkind] at h
    dsimp only at h ⊢
    unfold number at h ⊢
    cases hread : Decimal.read? false p.next.1.text with
    | none => simp [hread, fail, Progress.isFine] at h
    | some n => exact .item hend (by simp)
  | minus =>
    rw [hkind] at h
    dsimp only at h ⊢
    unfold minus at h ⊢
    split_ifs at h ⊢ with hnumber
    · unfold number at h ⊢
      cases hread : Decimal.read? true p.next.2.next.1.text with
      | none => simp [hread, fail, Progress.isFine] at h
      | some n => exact .negative hkind hnumber
    · exact .minus hkind
  | string => exact .item hend (by simp)
  | lparen => exact .opening hend
  | quote => exact .opening hend
  | _ => simp [hkind, fail, Progress.isFine] at h

/-- A step that does not fail reads tokens in one of these ways. -/
theorem reads_step {p : Parser} (h : p.step.isFine = true) : p.Reads p.step := by
  unfold step at h ⊢
  split at h
  · next items outer hframes =>
    split at h
    · next hkind => exact .item (by simp [Token.isEnd, hkind]) (by simp)
    · simp [fail, Progress.isFine] at h
    · split_ifs at h ⊢ with hdepth
      · simp [fail, Progress.isFine] at h
      · exact reads_start h
  · split_ifs at h ⊢ with hdepth
    · simp [fail, Progress.isFine] at h
    · exact reads_start h

/-! ### The tokens that have been read -/

/-- The parser has taken the tokens `used` off the source `s`.  If it has put a token back,
it has read that one too. -/
def HasRead (s : Source) (used : List Token) (p : Parser) : Prop :=
  match p.ahead with
  | none => s.Takes used p.source
  | some t => ∃ s', s.Takes used s' ∧ s'.token = (t, p.source)

/-- How a parser is left behind the tokens `used` of the expression `e`. -/
inductive Leaves (used : List Token) (e : Expr) (q : Parser) : Prop
  /-- Nothing has been put back, and a name is the text of a token. -/
  | clear (hahead : q.ahead = none)
      (he : ∀ name, e = .atom name → ∃ t ∈ used, t.kind = .atom ∧ t.text = name)
  /-- The last token is a minus sign, and the token behind it has been put back. -/
  | ahead {init : List Token} {m t : Token} (hused : used = init ++ [m])
      (hm : m.kind = .minus) (he : e = .atom m.text) (hahead : q.ahead = some t)

namespace HasRead

variable {s : Source} {used : List Token} {p q : Parser}

lemma mk (s : Source) : HasRead s [] { source := s } :=
  .nil

/-- Reading a token takes it. -/
lemma next (h : HasRead s used p) (hend : p.next.1.isEnd = false) :
    HasRead s (used ++ [p.next.1]) p.next.2 := by
  unfold HasRead at h ⊢
  rw [ahead_next]
  unfold Parser.next at hend ⊢
  cases hahead : p.ahead with
  | none =>
    rw [hahead] at h hend
    exact .concat h hend
  | some t =>
    rw [hahead] at h hend
    obtain ⟨s', htakes, htoken⟩ := h
    have hconcat := htakes.concat (by rw [htoken]; exact hend)
    rw [htoken] at hconcat
    exact hconcat

/-- Looking at a token does not take it. -/
lemma peek (h : HasRead s used p) : HasRead s used p.peek := by
  unfold HasRead at h
  cases hahead : p.ahead with
  | none =>
    rw [hahead] at h
    refine ⟨p.source, h, ?_⟩
    simp [Parser.peek, unread, Parser.next, hahead]
  | some t =>
    rw [hahead] at h
    obtain ⟨s', htakes, htoken⟩ := h
    refine ⟨s', htakes, ?_⟩
    simpa [Parser.peek, unread, Parser.next, hahead] using htoken

/-- Handing over an expression takes no token. -/
lemma deliver (h : HasRead s used p) (x : Expr) (frames : List Frame) :
    HasRead s used (p.deliver x frames).parser := by
  obtain ⟨left, hleft⟩ := p.exists_parser_deliver x frames
  rw [hleft]
  exact h

/-- The tokens of the source are those taken and those pending. -/
lemma tokens_eq (h : HasRead s used p) : s.tokens.1 = used ++ p.pending := by
  unfold HasRead at h
  unfold pending
  cases hahead : p.ahead with
  | none =>
    rw [hahead] at h
    exact h.tokens_eq
  | some t =>
    rw [hahead] at h
    obtain ⟨s', htakes, htoken⟩ := h
    rw [htakes.tokens_eq]
    dsimp only
    split_ifs with hend
    · rw [Source.tokens_of_isEnd (by rw [htoken]; exact hend)]
    · rw [Source.tokens_of_not_isEnd (by rw [htoken]; simpa using hend), htoken]

/-- Whichever way a step reads tokens, it takes them off the source, and the last step leaves
the parser as it should. -/
lemma reads (h : HasRead s used p) {progress : Progress} (hreads : p.Reads progress) :
    ∃ more, HasRead s (used ++ more) progress.parser ∧
      ∀ e q, progress = .stop (.ok e) q → Leaves (used ++ more) e q := by
  cases hreads with
  | @item x frames hend hx =>
    refine ⟨[p.next.1], (h.next hend).deliver x frames, fun e q hstop => ?_⟩
    obtain ⟨hahead, rfl | ⟨-, hname⟩⟩ := deliver_eq_stop hstop
    · exact .clear (hahead.trans p.ahead_next) fun name hname =>
        ⟨p.next.1, by simp, hx name hname⟩
    · exact .clear (hahead.trans p.ahead_next) fun name he => absurd he (hname name)
  | opening hend => exact ⟨[p.next.1], h.next hend, by simp⟩
  | @negative n frames hm ht =>
    have htwo := (h.next (by simp [Token.isEnd, hm])).next (by simp [Token.isEnd, ht])
    rw [List.append_assoc] at htwo
    refine ⟨_, htwo.deliver (.number n) frames, fun e q hstop => ?_⟩
    obtain ⟨hahead, rfl | ⟨hquote, -⟩⟩ := deliver_eq_stop hstop
    · exact .clear (hahead.trans (ahead_next _)) (by simp)
    · exact absurd rfl hquote
  | @minus frames hm =>
    have hone := h.next (by simp [Token.isEnd, hm])
    refine ⟨[p.next.1], hone.peek.deliver (.atom p.next.1.text) frames, fun e q hstop => ?_⟩
    obtain ⟨hahead, rfl | ⟨hquote, -⟩⟩ := deliver_eq_stop hstop
    · exact .ahead rfl hm rfl hahead
    · exact absurd rfl hquote

/-- An expression takes its tokens off the source, and leaves the parser as it should. -/
theorem expression (h : HasRead s used p) {e : Expr} (hq : p.expression = (.ok e, q)) :
    ∃ more, HasRead s (used ++ more) q ∧ Leaves (used ++ more) e q := by
  fun_induction Parser.expression p generalizing used with
  | case1 p outcome r hstep =>
    obtain ⟨rfl, rfl⟩ := Prod.mk.inj hq
    obtain ⟨more, hread, hleaves⟩ := h.reads (reads_step (by rw [hstep]; rfl))
    rw [hstep] at hread
    exact ⟨more, hread, hleaves e r hstep⟩
  | case2 p r hstep hlt ih =>
    obtain ⟨more, hread, -⟩ := h.reads (reads_step (by rw [hstep]; rfl))
    rw [hstep] at hread
    obtain ⟨later, hlater⟩ := ih hread hq
    rw [List.append_assoc] at hlater
    exact ⟨more ++ later, hlater⟩

end HasRead

end Parser

end TinyLisp
