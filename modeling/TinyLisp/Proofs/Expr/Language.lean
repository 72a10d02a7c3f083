import TinyLisp.Proofs.Expr.Nesting
import TinyLisp.Proofs.Expr.Pending
import TinyLisp.Proofs.Text.Decimal
import TinyLisp.Proofs.Token.Acceptable
import TinyLisp.Proofs.Token.Spelling

/-!
# The language of scripts

A script is parsed without failure exactly if its tokens are acceptable.

The proof follows the automaton through the tokens.  What it has read so far determines
how its open frames nest (`Pushdown.Tracks`).  Each further token that it reads without
failure may stand where it stands, and conversely a token that may stand there is read
without failure (`Pushdown.Stands.moves`, `Pushdown.Stands.exists_moves`).
-/

namespace TinyLisp

namespace Pushdown

/-! ### A step and the token it reads -/

/-- The automaton stands between the tokens read and those to come: it has admitted
every token, tracks what they leave open, and has not passed by a number that a minus
sign takes. -/
structure Stands (before : List Token) (frames : List Frame) (rest : List Token) : Prop where
  admitted : Token.Admitted before
  tracks : Tracks before frames
  sign : Token.EndsWith .minus before → (next rest).kind ≠ .number

lemma Stands.start (ts : List Token) : Stands [] [] ts :=
  ⟨Token.admitted_nil, .start, by simp⟩

/-- The automaton stands behind a further token if it admits and tracks it, and if a minus
sign does not take what comes next. -/
lemma stands_concat {before rest : List Token} {frames : List Frame} {t : Token}
    (hbefore : Token.Admitted before) (ht : Token.Admits before t)
    (htracks : Tracks (before ++ [t]) frames)
    (hsign : t.kind = .minus → (next rest).kind ≠ .number) :
    Stands (before ++ [t]) frames rest := by
  refine ⟨Token.admitted_concat.mpr ⟨hbefore, ht⟩, htracks, ?_⟩
  rw [Token.endsWith_concat]
  exact hsign

/-- A leaf cannot be quoted. -/
lemma Leaf.quote?_eq_none {used rest : List Token} {e : Expr} (h : Leaf used e rest) :
    e.quote? = none := by
  cases h <;> rfl

/-- A leaf is not handed to a quote without failure. -/
lemma Leaf.head?_ne_quote {used rest : List Token} {e : Expr} {frames : List Frame}
    (h : Leaf used e rest) (hfine : (deliver e rest frames).isFine = true) :
    frames.head? ≠ some .quote := by
  intro hhead
  obtain ⟨outer, rfl⟩ := List.head?_eq_some_iff.mp hhead
  simp [deliver, h.quote?_eq_none, Turn.isFine] at hfine

/-- Where the automaton may go down a level, an expression may start. -/
lemma Tracks.not_deep {before : List Token} {frames : List Frame} (h : Tracks before frames)
    (hdepth : frames.length < depthLimit) : Token.enclosing before ≤ 255 := by
  rw [h.enclosing_eq]
  unfold depthLimit at hdepth
  omega

/-- Where no quote waits and nothing is too deep, names and texts are admitted. -/
lemma Tracks.admits {before : List Token} {frames : List Frame} {t : Token}
    (h : Tracks before frames) (hdepth : frames.length < depthLimit)
    (hhead : frames.head? ≠ some .quote) (ht : t.kind ∈ [Token.Kind.atom, .minus, .string]) :
    Token.Admits before t := by
  have hquote : ¬Token.EndsWith .quote before := mt h.quote_iff.mp hhead
  have hkind : t.kind ≠ .comment ∧ t.kind ≠ .rparen ∧ t.kind ≠ .number := by
    simp only [List.mem_cons, List.not_mem_nil, or_false] at ht
    rcases ht with ht | ht | ht <;> simp [ht]
  exact {
    no_comment := hkind.1
    closed_lt := fun hclose => absurd hclose hkind.2.1
    operand := fun hends => absurd hends hquote
    in_range := fun hnumber => absurd hnumber hkind.2.2
    not_deep := fun _ => h.not_deep hdepth }

/-- So is a number in range that no minus sign takes. -/
lemma Tracks.admits_number {before : List Token} {frames : List Frame} {t : Token}
    (h : Tracks before frames) (hdepth : frames.length < depthLimit)
    (hhead : frames.head? ≠ some .quote) (ht : t.kind = .number)
    (hsign : ¬Token.EndsWith .minus before)
    (hvalue : Decimal.value t.text.toList ≤ 2 ^ 63 - 1) : Token.Admits before t := by
  have hquote : ¬Token.EndsWith .quote before := mt h.quote_iff.mp hhead
  exact {
    no_comment := by simp [ht]
    closed_lt := by simp [ht]
    operand := fun hends => absurd hends hquote
    in_range := fun _ => ⟨fun hminus => absurd hminus hsign, fun _ => hvalue⟩
    not_deep := fun _ => h.not_deep hdepth }

/-- Behind a minus sign, a number is no expression of its own, and its depth does not
matter. -/
lemma admits_signed {before : List Token} {m t : Token} (hm : m.kind = .minus)
    (ht : t.kind = .number) (hvalue : Decimal.value t.text.toList ≤ 2 ^ 63) :
    Token.Admits (before ++ [m]) t := by
  have hsign : Token.EndsWith .minus (before ++ [m]) := by simpa using hm
  exact {
    no_comment := by simp [ht]
    closed_lt := by simp [ht]
    operand := by simp [hm]
    in_range := fun _ => ⟨fun _ => hvalue, fun hunsigned => absurd hsign hunsigned⟩
    not_deep := by simp [Token.Starts, ht, hsign] }

/-- The tokens of a leaf that is read without failure are admitted. -/
lemma Stands.leaf {before used rest : List Token} {frames : List Frame} {e : Expr}
    (h : Stands before frames (used ++ rest)) (hleaf : Leaf used e rest)
    (hdepth : frames.length < depthLimit) (hhead : frames.head? ≠ some .quote) :
    Stands (before ++ used) frames rest := by
  cases hleaf with
  | @atom t _ ht =>
    have hadmits : Token.Admits before t := h.tracks.admits hdepth hhead (by simp [ht])
    exact stands_concat h.admitted hadmits (h.tracks.concat hhead (by simp [ht])) (by simp [ht])
  | @number t n _ ht hn =>
    have hvalue : Decimal.value t.text.toList ≤ 2 ^ 63 - 1 :=
      ((Decimal.read?_eq_some_iff _ _ _).mp hn).1
    have hsign : ¬Token.EndsWith .minus before := fun hminus => h.sign hminus ht
    have hadmits : Token.Admits before t :=
      h.tracks.admits_number hdepth hhead ht hsign hvalue
    exact stands_concat h.admitted hadmits (h.tracks.concat hhead (by simp [ht])) (by simp [ht])
  | @negative m t n _ hm ht hn =>
    have hvalue : Decimal.value t.text.toList ≤ 2 ^ 63 :=
      ((Decimal.read?_eq_some_iff _ _ _).mp hn).1
    have hadmits : Token.Admits before m := h.tracks.admits hdepth hhead (by simp [hm])
    have hadmitted : Token.Admitted (before ++ [m]) :=
      Token.admitted_concat.mpr ⟨h.admitted, hadmits⟩
    have htracks : Tracks (before ++ [m]) frames := h.tracks.concat hhead (by simp [hm])
    rw [List.append_cons]
    exact stands_concat hadmitted (admits_signed hm ht hvalue)
      (htracks.concat hhead (by simp [ht])) (by simp [ht])
  | @minus m _ hm hrest =>
    have hadmits : Token.Admits before m := h.tracks.admits hdepth hhead (by simp [hm])
    exact stands_concat h.admitted hadmits (h.tracks.concat hhead (by simp [hm])) fun _ => hrest
  | @string t _ ht =>
    have hadmits : Token.Admits before t := h.tracks.admits hdepth hhead (by simp [ht])
    exact stands_concat h.admitted hadmits (h.tracks.concat hhead (by simp [ht])) (by simp [ht])

/-- A list or a quote is admitted where nothing is too deep. -/
lemma Tracks.admits_operand {before : List Token} {frames : List Frame} {t : Token}
    (h : Tracks before frames) (hdepth : frames.length < depthLimit)
    (ht : t.kind = .quote ∨ t.kind = .lparen) : Token.Admits before t := by
  have hkind : t.kind ≠ .comment ∧ t.kind ≠ .rparen ∧ t.kind ≠ .number := by
    rcases ht with ht | ht <;> simp [ht]
  exact {
    no_comment := hkind.1
    closed_lt := fun hclose => absurd hclose hkind.2.1
    operand := fun _ => ht
    in_range := fun hnumber => absurd hnumber hkind.2.2
    not_deep := fun _ => h.not_deep hdepth }

/-- A closing parenthesis is admitted where a list is the innermost frame. -/
lemma Tracks.admits_rparen {before : List Token} {items : List Expr} {outer : List Frame}
    {t : Token} (h : Tracks before (.list items :: outer)) (ht : t.kind = .rparen) :
    Token.Admits before t := by
  have hlt : Token.count .rparen before < Token.count .lparen before := by
    have hcount := h.count_eq
    rw [lists] at hcount
    omega
  exact {
    no_comment := by simp [ht]
    closed_lt := fun _ => hlt
    operand := by simp [h.quote_iff]
    in_range := by simp [ht]
    not_deep := by simp [Token.Starts, ht] }

/-- A step without failure admits the tokens it reads. -/
lemma Stands.moves {before ts : List Token} {frames : List Frame} {turn : Turn}
    (h : Stands before frames ts) (hmoves : Moves frames ts turn) (hfine : turn.isFine = true) :
    ∃ used, ts = used ++ turn.rest ∧ Stands (before ++ used) turn.frames turn.rest := by
  cases hmoves with
  | @leaf _ used rest e hleaf hdepth =>
    have hhead := hleaf.head?_ne_quote hfine
    have hstands := h.leaf hleaf hdepth hhead
    rw [rest_deliver]
    exact ⟨used, rfl, hstands.admitted, hstands.tracks.deliver hhead e rest, hstands.sign⟩
  | @lparen _ t rest ht hdepth =>
    have hadmits := h.tracks.admits_operand hdepth (Or.inr ht)
    exact ⟨[t], rfl, stands_concat h.admitted hadmits (h.tracks.concat_lparen ht) (by simp [ht])⟩
  | @quote _ t rest ht hdepth =>
    have hadmits := h.tracks.admits_operand hdepth (Or.inl ht)
    exact ⟨[t], rfl, stands_concat h.admitted hadmits (h.tracks.concat_quote ht) (by simp [ht])⟩
  | @rparen items outer t rest ht =>
    have hadmits := h.tracks.admits_rparen ht
    rw [rest_deliver]
    exact ⟨[t], rfl,
      stands_concat h.admitted hadmits (h.tracks.concat_rparen ht hfine) (by simp [ht])⟩

/-! ### A token that may stand where it stands is read -/

/-- Quotes alone leave no list to close. -/
lemma head?_eq_quote_of_lists_eq_zero {frames : List Frame} (hne : frames ≠ [])
    (h : lists frames = 0) : frames.head? = some .quote := by
  cases frames with
  | nil => exact absurd rfl hne
  | cons frame outer =>
    cases frame with
    | list items => simp [lists] at h
    | quote => rfl

/-- Where a closing parenthesis may stand, a list is the innermost frame. -/
lemma Tracks.exists_list {before : List Token} {frames : List Frame} {t : Token}
    (h : Tracks before frames) (hadmits : Token.Admits before t) (ht : t.kind = .rparen) :
    ∃ items outer, frames = .list items :: outer := by
  cases frames with
  | nil =>
    have hlt := hadmits.closed_lt ht
    have hcount := h.count_eq
    simp only [lists] at hcount
    omega
  | cons frame outer =>
    cases frame with
    | list items => exact ⟨items, outer, rfl⟩
    | quote =>
      have hquote : Token.EndsWith .quote before := h.quote_iff.mpr rfl
      simpa [ht] using hadmits.operand hquote

/-- An expression that may start at a place is not too deep there. -/
lemma Tracks.length_lt {before : List Token} {frames : List Frame} {t : Token}
    (h : Tracks before frames) (hadmits : Token.Admits before t) (ht : Token.Starts before t) :
    frames.length < depthLimit := by
  have hle := hadmits.not_deep ht
  rw [h.enclosing_eq] at hle
  unfold depthLimit
  omega

/-- Where a token other than a list or a quote may stand, no quote waits. -/
lemma Tracks.head?_ne_quote {before : List Token} {frames : List Frame} {t : Token}
    (h : Tracks before frames) (hadmits : Token.Admits before t)
    (ht : t.kind ≠ .quote ∧ t.kind ≠ .lparen) : frames.head? ≠ some .quote := by
  intro hhead
  have hoperand := hadmits.operand (h.quote_iff.mpr hhead)
  tauto

/-- A minus sign that may stand where it stands starts a leaf, and so does what follows
if it is a number. -/
lemma exists_leaf_of_minus {before rest : List Token} {t : Token} (ht : t.kind = .minus)
    (hrest : ∀ u ∈ rest.head?, Token.Admits (before ++ [t]) u) :
    ∃ used e rest', t :: rest = used ++ rest' ∧ Leaf used e rest' := by
  by_cases hnext : (next rest).kind = .number
  · cases rest with
    | nil => simp [next, Token.endOfInput] at hnext
    | cons u rest =>
      have hu : Token.Admits (before ++ [t]) u := hrest u rfl
      have hsign : Token.EndsWith .minus (before ++ [t]) := by simpa using ht
      have hvalue : Decimal.value u.text.toList ≤ 2 ^ 63 := (hu.in_range hnext).1 hsign
      obtain ⟨n, hn⟩ := Option.isSome_iff_exists.mp ((Decimal.isSome_read?_iff true _).mpr hvalue)
      exact ⟨[t, u], .number n, rest, rfl, .negative ht hnext hn⟩
  · exact ⟨[t], .atom t.text, rest, rfl, .minus ht hnext⟩

/-- Every token may stand where it stands, nothing is left open at the end, and the end
of the input is not among the tokens. -/
structure Ends (ts : List Token) : Prop where
  admitted : Token.Admitted ts
  closed_eq : Token.count .rparen ts = Token.count .lparen ts
  not_quote : ¬Token.EndsWith .quote ts
  proper : ∀ t ∈ ts, t.kind ≠ .eof ∧ t.kind ≠ .error

/-- A leaf that may stand where it stands is read without failure. -/
lemma exists_moves_of_leaf {ts used rest : List Token} {frames : List Frame} {e : Expr}
    (hts : ts = used ++ rest) (hleaf : Leaf used e rest) (hdepth : frames.length < depthLimit)
    (hhead : frames.head? ≠ some .quote) :
    ∃ turn, Moves frames ts turn ∧ turn.isFine = true := by
  rw [hts]
  exact ⟨_, .leaf hleaf hdepth, isFine_deliver_of_ne hhead e rest⟩

/-- A token that may stand where it stands is read without failure.  A minus sign looks at
the token behind it, which therefore has to be admitted as well. -/
lemma Stands.exists_moves_cons {before rest : List Token} {frames : List Frame} {t : Token}
    (h : Stands before frames (t :: rest)) (hadmits : Token.Admits before t)
    (hrest : t.kind = .minus → ∀ u ∈ rest.head?, Token.Admits (before ++ [t]) u)
    (hproper : t.kind ≠ .eof ∧ t.kind ≠ .error) :
    ∃ turn, Moves frames (t :: rest) turn ∧ turn.isFine = true := by
  cases ht : t.kind with
  | lparen =>
    have hstarts : Token.Starts before t := by simp [Token.Starts, ht]
    exact ⟨_, .lparen ht (h.tracks.length_lt hadmits hstarts), rfl⟩
  | quote =>
    have hstarts : Token.Starts before t := by simp [Token.Starts, ht]
    exact ⟨_, .quote ht (h.tracks.length_lt hadmits hstarts), rfl⟩
  | rparen =>
    obtain ⟨items, outer, rfl⟩ := h.tracks.exists_list hadmits ht
    exact ⟨_, .rparen ht, isFine_deliver_of_quote rfl rest outer⟩
  | atom =>
    exact exists_moves_of_leaf rfl (.atom ht)
      (h.tracks.length_lt hadmits (by simp [Token.Starts, ht]))
      (h.tracks.head?_ne_quote hadmits (by simp [ht]))
  | string =>
    exact exists_moves_of_leaf rfl (.string ht)
      (h.tracks.length_lt hadmits (by simp [Token.Starts, ht]))
      (h.tracks.head?_ne_quote hadmits (by simp [ht]))
  | number =>
    have hsign : ¬Token.EndsWith .minus before := fun hminus => h.sign hminus ht
    have hvalue : Decimal.value t.text.toList ≤ 2 ^ 63 - 1 := (hadmits.in_range ht).2 hsign
    obtain ⟨n, hn⟩ := Option.isSome_iff_exists.mp ((Decimal.isSome_read?_iff false _).mpr hvalue)
    exact exists_moves_of_leaf rfl (.number ht hn)
      (h.tracks.length_lt hadmits (by simp [Token.Starts, ht, hsign]))
      (h.tracks.head?_ne_quote hadmits (by simp [ht]))
  | minus =>
    obtain ⟨used, e, rest', hts, hleaf⟩ := exists_leaf_of_minus ht (hrest ht)
    exact exists_moves_of_leaf hts hleaf
      (h.tracks.length_lt hadmits (by simp [Token.Starts, ht]))
      (h.tracks.head?_ne_quote hadmits (by simp [ht]))
  | comment => exact absurd ht hadmits.no_comment
  | eof => exact absurd ht hproper.1
  | error => exact absurd ht hproper.2

/-- As long as tokens are left or frames are open, a step is made without failure. -/
lemma Stands.exists_moves {before ts : List Token} {frames : List Frame}
    (h : Stands before frames ts) (hends : Ends (before ++ ts))
    (hmore : frames ≠ [] ∨ ts ≠ []) : ∃ turn, Moves frames ts turn ∧ turn.isFine = true := by
  cases ts with
  | nil =>
    -- only quotes can be open, but the last token is none
    rw [List.append_nil] at hends
    have hcount := h.tracks.count_eq
    rw [hends.closed_eq] at hcount
    have hhead := head?_eq_quote_of_lists_eq_zero (hmore.resolve_right (by simp))
      (by omega : lists frames = 0)
    exact absurd (h.tracks.quote_iff.mpr hhead) hends.not_quote
  | cons t rest =>
    refine h.exists_moves_cons (hends.admitted before t rest rfl) ?_ (hends.proper t (by simp))
    intro _ u hu
    obtain ⟨rest', rfl⟩ := List.head?_eq_some_iff.mp hu
    exact hends.admitted _ u rest' (by simp)

/-! ### Expressions and scripts -/

/-- An expression that is read without failure is admitted. -/
lemma Stands.expression {before ts rest : List Token} {frames : List Frame} {e : Expr}
    (h : Stands before frames ts) (hexpr : Pushdown.expression frames ts = (.ok e, rest)) :
    ∃ used, ts = used ++ rest ∧ Stands (before ++ used) [] rest := by
  refine expression_induction
    (motive := fun frames ts _ rest => ∀ before, Stands before frames ts →
      ∃ used, ts = used ++ rest ∧ Stands (before ++ used) [] rest) ?_ ?_ hexpr before h
  · intro frames ts e rest hmoves before h
    exact h.moves hmoves rfl
  · intro frames frames' ts ts' e rest hmoves ih before h
    obtain ⟨used, hts, hstands⟩ := h.moves hmoves rfl
    obtain ⟨more, hmore, hend⟩ := ih (before ++ used) hstands
    refine ⟨used ++ more, ?_, by rwa [← List.append_assoc]⟩
    rw [hts, rest_go, hmore, List.append_assoc]

/-- A script that is read without failure is admitted. -/
lemma Stands.script {before ts : List Token} {es : List Expr} (h : Stands before [] ts)
    (hscript : (Pushdown.script ts).1 = .ok es) : Stands (before ++ ts) [] [] := by
  refine script_induction
    (motive := fun ts _ => ∀ before, Stands before [] ts → Stands (before ++ ts) [] [])
    ?_ ?_ hscript before h
  · intro before h
    rwa [List.append_nil]
  · intro ts rest e es hexpr ih before h
    obtain ⟨used, rfl, hstands⟩ := h.expression hexpr
    rw [← List.append_assoc]
    exact ih (before ++ used) hstands

/-- As long as there is more to read, a frame is open. -/
lemma frames_ne_nil_of_deliver {e : Expr} {rest rest' : List Token} {frames frames' : List Frame}
    (h : deliver e rest frames = .go frames' rest') : frames' ≠ [] := by
  induction frames generalizing e with
  | nil => simp [deliver] at h
  | cons frame outer ih =>
    cases frame with
    | list items =>
      obtain ⟨rfl, -⟩ := Turn.go.inj h
      exact List.cons_ne_nil _ _
    | quote =>
      unfold deliver at h
      split at h
      · exact ih h
      · simp at h

lemma Moves.frames_ne_nil {frames frames' : List Frame} {ts rest : List Token} {turn : Turn}
    (h : Moves frames ts turn) (hturn : turn = .go frames' rest) : frames' ≠ [] := by
  cases h with
  | leaf hleaf => exact frames_ne_nil_of_deliver hturn
  | lparen ht =>
    obtain ⟨rfl, -⟩ := Turn.go.inj hturn
    exact List.cons_ne_nil _ _
  | quote ht =>
    obtain ⟨rfl, -⟩ := Turn.go.inj hturn
    exact List.cons_ne_nil _ _
  | rparen ht => exact frames_ne_nil_of_deliver hturn

/-- An expression of tokens that may stand where they stand is read. -/
lemma Stands.exists_expression {before ts : List Token} {frames : List Frame}
    (h : Stands before frames ts) (hends : Ends (before ++ ts))
    (hmore : frames ≠ [] ∨ ts ≠ []) :
    ∃ e rest, Pushdown.expression frames ts = (.ok e, rest) := by
  obtain ⟨turn, hmoves, hfine⟩ := h.exists_moves hends hmore
  obtain ⟨used, hts, hstands⟩ := h.moves hmoves hfine
  rw [expression_eq_resume, hmoves.step_eq]
  cases turn with
  | stop outcome rest =>
    cases outcome with
    | error err => simp [Turn.isFine] at hfine
    | ok e => exact ⟨e, rest, rfl⟩
  | go frames' rest =>
    have hlt : rest.length < ts.length := length_lt_of_step hmoves.step_eq
    refine hstands.exists_expression ?_ (Or.inl (hmoves.frames_ne_nil rfl))
    rwa [List.append_assoc, ← hts]
termination_by ts.length

/-- A script of tokens that may stand where they stand is read. -/
lemma Stands.exists_script {before ts : List Token} (h : Stands before [] ts)
    (hends : Ends (before ++ ts)) : ∃ es, (Pushdown.script ts).1 = .ok es := by
  by_cases hne : ts = []
  · exact ⟨[], by rw [hne, script_nil]⟩
  · obtain ⟨e, rest, hexpr⟩ := h.exists_expression hends (Or.inr hne)
    obtain ⟨used, hts, hstands⟩ := h.expression hexpr
    have hlt : rest.length < ts.length := by
      obtain ⟨t, us, rfl⟩ := exists_used_expression hexpr
      simp only [List.length_append, List.length_cons]
      omega
    obtain ⟨es, hes⟩ := hstands.exists_script (by rwa [List.append_assoc, ← hts])
    exact ⟨e :: es, by rw [script_of_ok hexpr, hes]; rfl⟩
termination_by ts.length

/-- The automaton reads a script off tokens exactly if they are acceptable. -/
theorem script_isOk_iff {ts : List Token} (hproper : ∀ t ∈ ts, t.kind ≠ .eof ∧ t.kind ≠ .error) :
    (∃ es, (script ts).1 = .ok es) ↔ Token.Acceptable ts := by
  rw [Token.acceptable_iff]
  constructor
  · rintro ⟨es, hes⟩
    have hstands : Stands ts [] [] := (Stands.start ts).script hes
    refine ⟨hstands.admitted, ?_, by simp [hstands.tracks.quote_iff]⟩
    simpa [lists] using hstands.tracks.count_eq.symm
  · rintro ⟨hadmitted, hclosed, hquote⟩
    exact (Stands.start ts).exists_script ⟨hadmitted, hclosed, hquote, hproper⟩

end Pushdown

/-- The end of the input makes no difference to what is acceptable. -/
lemma Token.acceptable_concat_endOfInput (ts : List Token) :
    Acceptable (ts ++ [endOfInput]) ↔ Acceptable ts := by
  rw [acceptable_iff, acceptable_iff, admitted_concat]
  have hend : Admits ts endOfInput ↔ ¬EndsWith .quote ts := by
    constructor
    · intro h hquote
      simpa [endOfInput] using h.operand hquote
    · intro h
      exact ⟨by simp [endOfInput], by simp [endOfInput], by simp [h], by simp [endOfInput],
        by simp [Starts, endOfInput]⟩
  rw [hend]
  simp [endOfInput, and_assoc, and_comm]

/-- A text is parsed as a script exactly if its tokens are acceptable. -/
theorem parseScript_isOk_iff (s : String) :
    (∃ es, parseScript s = .ok es) ↔ Token.Acceptable (tokenize s) := by
  have hproper : ∀ t ∈ (Source.ofString s).tokens.1, t.kind ≠ .eof ∧ t.kind ≠ .error := by
    refine (Token.lexes_tokens_ofList s.toList).forall_mem fun t r rest ht => ?_
    exact ⟨ht.isProper.1, ht.isProper.2.1⟩
  have htokens : tokenize s = (Source.ofString s).tokens.1 ++ [Token.endOfInput] := rfl
  rw [htokens, Token.acceptable_concat_endOfInput, parseScript_eq]
  exact Pushdown.script_isOk_iff hproper

end TinyLisp
