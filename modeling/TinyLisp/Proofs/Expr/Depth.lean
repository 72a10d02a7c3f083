import TinyLisp.Proofs.Expr.Incomplete

/-!
# The nesting limit

When is an expression refused as too deep?  It is not enough to count how many lists and
quotes are open at once.  Before each item, the parser asks whether there is room for one
more level, and a name or a number takes up a level just as a list does.  So `parseExpr`
fails with `ParseError.tooDeep` exactly if, before any other fault, an item of any kind
comes where 256 lists and quotes are open (`parseExpr_eq_tooDeep_iff`).  The end of a list
is no item, and so 256 lists can be nested if the innermost is empty, but not if it holds a
number (`numberInside_tooDeep`).

As in the description of the language of scripts, the condition is about the tokens: how
many parts enclose a place (`Token.enclosing`), that each token may stand where it stands
(`Token.Admitted`), and that all of them belong to the first expression
(`Token.Unfinished`).
-/

namespace TinyLisp

namespace Token

/-! ### Tokens of an unfinished expression -/

/-- The tokens are the beginning of one expression: behind each of them something is open. -/
def Unfinished (ts : List Token) : Prop :=
  ∀ part, part <+: ts → part ≠ [] → 0 < enclosing part

lemma unfinished_nil : Unfinished [] := by
  intro part hpart hne
  exact absurd (List.prefix_nil.mp hpart) hne

lemma unfinished_concat {ts : List Token} {t : Token} :
    Unfinished (ts ++ [t]) ↔ Unfinished ts ∧ 0 < enclosing (ts ++ [t]) := by
  constructor
  · intro h
    refine ⟨fun part hpart => h part (hpart.trans (List.prefix_append ts [t])), ?_⟩
    exact h _ (List.prefix_refl _) (by simp)
  · rintro ⟨hts, ht⟩ part hpart hne
    rcases List.prefix_concat_iff.mp hpart with rfl | hpart
    · exact ht
    · exact hts part hpart hne

/-- A token that is part of a leaf opens and closes nothing. -/
lemma enclosing_concat_of_ne {t : Token} (ht : t.kind ∉ [Kind.lparen, .rparen, .quote])
    (before : List Token) : enclosing (before ++ [t]) = enclosing before := by
  simp only [List.mem_cons, List.not_mem_nil, or_false, not_or] at ht
  rw [← length_heights, ← length_heights, heights_concat_of_ne ht.1 ht.2.1, if_neg ht.2.2,
    List.append_nil]

/-- What is open has been opened. -/
lemma enclosing_le_count (ts : List Token) :
    enclosing ts ≤ count .lparen ts + count .quote ts := by
  induction ts with
  | nil => simp [enclosing, isOpen]
  | cons t ts ih =>
    rw [← length_opens] at ih ⊢
    rw [opens_cons, count_cons, count_cons]
    split
    · next hopen =>
      have hkind : t.kind = .lparen ∨ t.kind = .quote := by
        simp only [isOpen, Bool.and_eq_true] at hopen
        simpa using hopen.1
      rcases hkind with hkind | hkind <;> simp [hkind] <;> omega
    · omega

/-- The token `t` comes where no item may stand behind the tokens `before`. -/
structure IsTooDeep (before : List Token) (t : Token) : Prop where
  /-- There has been no fault. -/
  admitted : Admitted before
  /-- The first expression is not complete. -/
  unfinished : Unfinished before
  /-- Its lists and quotes that are open leave no room. -/
  full : 256 ≤ enclosing before
  /-- An item is asked for: behind a quotation mark that is so whatever comes, and in a list if
  neither the list nor the input is at its end. -/
  item : t.kind = .rparen ∨ t.kind = .eof → EndsWith .quote before

end Token

namespace Pushdown

open Token

/-! ### The step that finds no room -/

/-- Starting an expression finds other faults. -/
lemma start_ne_tooDeep {frames : List Frame} {t : Token} {rest rest' : List Token} :
    start frames t rest ≠ .stop (.error .tooDeep) rest' := by
  have hdeliver : ∀ {e ts}, deliver e ts frames ≠ .stop (.error .tooDeep) rest' := by
    intro e ts h
    obtain ⟨x, hx⟩ := deliver_error h
    simp at hx
  have hnumber : ∀ {negative digits ts},
      number frames negative digits ts ≠ .stop (.error .tooDeep) rest' := by
    intro negative digits ts
    unfold number
    split
    · exact hdeliver
    · simp
  unfold start
  split
  · exact hdeliver
  · exact hnumber
  · split
    · exact hnumber
    · exact hdeliver
  · exact hdeliver
  all_goals simp [ParseError.ofToken]

/-- Entering an expression fails for its depth exactly if there is no room. -/
lemma enter_eq_tooDeep_iff (frames : List Frame) (ts : List Token) :
    (∃ rest, enter frames ts = .stop (.error .tooDeep) rest) ↔ depthLimit ≤ frames.length := by
  unfold enter
  split
  · next hdepth => simp [hdepth]
  · next hdepth => simp [hdepth, start_ne_tooDeep]

/-- A step fails for its depth exactly if an item is asked for where there is no room. -/
lemma step_eq_tooDeep_iff {frames : List Frame} {ts : List Token} :
    (∃ rest, step frames ts = .stop (.error .tooDeep) rest) ↔
      depthLimit ≤ frames.length ∧
        ((next ts).kind = .rparen ∨ (next ts).kind = .eof → frames.head? = some .quote) := by
  have henter := enter_eq_tooDeep_iff frames ts
  cases frames with
  | nil => simpa [step, depthLimit] using henter
  | cons frame outer =>
    cases frame with
    | quote => simpa [step] using henter
    | list items =>
      have hfine := isFine_deliver_of_quote (e := .list items.reverse) rfl ts.tail outer
      unfold step
      dsimp only
      split
      · next hkind =>
        have hnot : ∀ rest, deliver (.list items.reverse) ts.tail outer ≠
            .stop (.error .tooDeep) rest := by
          intro rest hrest
          rw [hrest] at hfine
          simp [Turn.isFine] at hfine
        simp [hkind, hnot]
      · next hkind => simp [hkind]
      · next hclose hend =>
        rw [henter]
        exact (and_iff_left fun hkind => (hkind.elim hclose hend).elim).symm

/-! ### The way there -/

/-- A step reads a single token, or a minus sign and its number. -/
lemma Moves.exists_single_or_signed {frames : List Frame} {ts : List Token} {turn : Turn}
    (h : Moves frames ts turn) :
    (∃ t, ts = [t] ++ turn.rest) ∨
      ∃ m t, ts = [m, t] ++ turn.rest ∧ m.kind = .minus ∧ t.kind = .number := by
  cases h with
  | leaf hleaf _ =>
    rw [rest_deliver]
    cases hleaf with
    | atom _ => exact Or.inl ⟨_, rfl⟩
    | number _ _ => exact Or.inl ⟨_, rfl⟩
    | negative hm ht _ => exact Or.inr ⟨_, _, rfl, hm, ht⟩
    | minus _ _ => exact Or.inl ⟨_, rfl⟩
    | string _ => exact Or.inl ⟨_, rfl⟩
  | lparen _ _ => exact Or.inl ⟨_, rfl⟩
  | quote _ _ => exact Or.inl ⟨_, rfl⟩
  | rparen _ =>
    rw [rest_deliver]
    exact Or.inl ⟨_, rfl⟩

/-- A step that is not the last leaves the expression unfinished. -/
lemma Stands.unfinished {before ts ts' : List Token} {frames frames' : List Frame}
    (h : Stands before frames ts) (hopen : Unfinished before)
    (hmoves : Moves frames ts (.go frames' ts')) :
    ∃ used, ts = used ++ ts' ∧ Stands (before ++ used) frames' ts' ∧
      Unfinished (before ++ used) := by
  obtain ⟨used, hts, hstands⟩ := h.moves hmoves rfl
  rw [rest_go] at hts hstands
  have hpos : 0 < enclosing (before ++ used) := by
    rw [hstands.tracks.enclosing_eq]
    exact List.length_pos_of_ne_nil (hmoves.frames_ne_nil rfl)
  refine ⟨used, hts, hstands, ?_⟩
  rcases hmoves.exists_single_or_signed with ⟨t, ht⟩ | ⟨m, t, ht, hm, hnumber⟩
  · obtain rfl : used = [t] := List.append_cancel_right (hts.symm.trans ht)
    exact unfinished_concat.mpr ⟨hopen, hpos⟩
  · -- between the minus sign and its number just as much is open
    obtain rfl : used = [m, t] := List.append_cancel_right (hts.symm.trans ht)
    rw [List.append_cons] at hpos ⊢
    have hminus : 0 < enclosing (before ++ [m]) := by
      rwa [enclosing_concat_of_ne (by simp [hnumber])] at hpos
    exact unfinished_concat.mpr ⟨unfinished_concat.mpr ⟨hopen, hminus⟩, hpos⟩

/-- So does a run. -/
lemma Stands.of_runs {before ts ts' : List Token} {frames frames' : List Frame}
    (h : Stands before frames ts) (hopen : Unfinished before) (hruns : Runs frames ts frames' ts') :
    ∃ used, ts = used ++ ts' ∧ Stands (before ++ used) frames' ts' ∧
      Unfinished (before ++ used) := by
  induction hruns generalizing before with
  | refl => exact ⟨[], rfl, by rwa [List.append_nil], by rwa [List.append_nil]⟩
  | head hmoves _ ih =>
    obtain ⟨used, hts, hstands, hopen'⟩ := h.unfinished hopen hmoves
    obtain ⟨more, hmore, hlast⟩ := ih hstands hopen'
    refine ⟨used ++ more, ?_, by rwa [← List.append_assoc]⟩
    rw [hts, hmore, List.append_assoc]

/-- The tokens are the beginning of an expression, up to a place between two steps. -/
structure Begins (ts : List Token) : Prop where
  admitted : Admitted ts
  unfinished : Unfinished ts
  not_minus : ¬EndsWith .minus ts
  proper : ∀ t ∈ ts, t.kind ≠ .eof ∧ t.kind ≠ .error

/-- A step does not read beyond tokens that do not end with a minus sign. -/
lemma Moves.exists_within {frames : List Frame} {mid after : List Token} {turn : Turn}
    (h : Moves frames (mid ++ after) turn) (hne : mid ≠ []) (hlast : ¬EndsWith .minus mid) :
    ∃ used mid', used ≠ [] ∧ mid = used ++ mid' ∧ turn.rest = mid' ++ after := by
  obtain ⟨t, mid, rfl⟩ := List.exists_cons_of_ne_nil hne
  rcases h.exists_single_or_signed with ⟨u, hu⟩ | ⟨m, u, hu, hm, -⟩
  · obtain ⟨-, hrest⟩ := List.cons.inj hu
    exact ⟨[t], mid, by simp, rfl, hrest.symm⟩
  · obtain ⟨rfl, hmid⟩ := List.cons.inj hu
    cases mid with
    | nil => exact absurd ((endsWith_concat .minus [] t).mpr hm) hlast
    | cons v mid =>
      obtain ⟨-, hrest⟩ := List.cons.inj hmid
      exact ⟨[t, v], mid, by simp, rfl, hrest.symm⟩

/-- Inside the beginning of an expression a step is made, and it is not the last. -/
lemma Stands.exists_go {before mid after : List Token} {frames : List Frame}
    (h : Stands before frames (mid ++ after)) (hne : mid ≠ []) (hbegins : Begins (before ++ mid)) :
    ∃ used mid' frames', used ≠ [] ∧ mid = used ++ mid' ∧
      Moves frames (mid ++ after) (.go frames' (mid' ++ after)) ∧
      Stands (before ++ used) frames' (mid' ++ after) := by
  have hlast : ¬EndsWith .minus mid := fun hminus =>
    hbegins.not_minus (hminus.append_left before)
  obtain ⟨turn, hmoves, hfine⟩ : ∃ turn, Moves frames (mid ++ after) turn ∧ turn.isFine = true := by
    obtain ⟨t, mid, rfl⟩ := List.exists_cons_of_ne_nil hne
    refine h.exists_moves_cons (hbegins.admitted before t mid rfl) ?_ (hbegins.proper t (by simp))
    intro ht u hu
    cases mid with
    | nil => exact absurd ((endsWith_concat .minus [] t).mpr ht) hlast
    | cons v mid =>
      obtain rfl : v = u := by simpa using hu
      exact hbegins.admitted _ v mid (by simp)
  obtain ⟨used, mid', hused, rfl, hrest⟩ := hmoves.exists_within hne hlast
  obtain ⟨used', hts, hstands⟩ := h.moves hmoves hfine
  obtain rfl : used = used' := by
    rw [hrest, List.append_assoc] at hts
    exact List.append_cancel_right hts
  -- something is open behind the tokens read, so the step is not the last
  have hpos : 0 < turn.frames.length := by
    rw [← hstands.tracks.enclosing_eq]
    exact hbegins.unfinished _ ⟨mid', List.append_assoc _ _ _⟩ (by simp [hused])
  cases turn with
  | stop outcome rest => simp [Turn.frames] at hpos
  | go frames' rest =>
    obtain rfl : rest = mid' ++ after := hrest
    exact ⟨used, mid', frames', hused, rfl, hmoves, hstands⟩

/-- The automaton runs through the beginning of an expression. -/
lemma Stands.exists_runs {before mid after : List Token} {frames : List Frame}
    (h : Stands before frames (mid ++ after)) (hbegins : Begins (before ++ mid)) :
    ∃ frames', Runs frames (mid ++ after) frames' after ∧ Stands (before ++ mid) frames' after := by
  by_cases hne : mid = []
  · subst hne
    rw [List.append_nil]
    exact ⟨frames, .refl, h⟩
  · obtain ⟨used, mid', frames₁, hused, rfl, hmoves, hstands⟩ := h.exists_go hne hbegins
    have hlt : mid'.length < (used ++ mid').length := by
      have := List.length_pos_of_ne_nil hused
      rw [List.length_append]
      omega
    rw [← List.append_assoc] at hbegins ⊢
    obtain ⟨frames', hruns, hlast⟩ := hstands.exists_runs hbegins
    exact ⟨frames', .head hmoves hruns, hlast⟩
termination_by mid.length

/-! ### Expressions -/

/-- Where there is no room, the last token is no minus sign. -/
lemma begins_of_isTooDeep {before : List Token} {t : Token} (h : IsTooDeep before t)
    (hproper : ∀ u ∈ before, u.kind ≠ .eof ∧ u.kind ≠ .error) : Begins before := by
  refine ⟨h.admitted, h.unfinished, fun hminus => ?_, hproper⟩
  obtain ⟨init, m, rfl, hm⟩ := (endsWith_iff _ _).mp hminus
  have hle : enclosing init ≤ 255 :=
    (h.admitted init m [] rfl).not_deep (by simp [Starts, hm])
  have hfull := h.full
  rw [enclosing_concat_of_ne (by simp [hm])] at hfull
  omega

/-- An expression fails for its depth exactly if an item comes where there is no room. -/
theorem expression_eq_tooDeep_iff {ts : List Token}
    (hproper : ∀ t ∈ ts, t.kind ≠ .eof ∧ t.kind ≠ .error) :
    (expression [] ts).1 = .error .tooDeep ↔
      ∃ before rest, ts = before ++ rest ∧ IsTooDeep before (next rest) := by
  constructor
  · intro h
    obtain ⟨frames, rest, hruns, hstep⟩ := exists_runs_of_error (Prod.ext h rfl)
    obtain ⟨before, hts, hstands, hopen⟩ := (Stands.start ts).of_runs unfinished_nil hruns
    rw [List.nil_append] at hstands hopen
    obtain ⟨hdepth, hitem⟩ := step_eq_tooDeep_iff.mp ⟨_, hstep⟩
    refine ⟨before, rest, hts, hstands.admitted, hopen, ?_, ?_⟩
    · rw [hstands.tracks.enclosing_eq]
      exact hdepth
    · rw [hstands.tracks.quote_iff]
      exact hitem
  · rintro ⟨before, rest, rfl, hdeep⟩
    have hbegins := begins_of_isTooDeep hdeep fun u hu =>
      hproper u (List.mem_append_left rest hu)
    obtain ⟨frames, hruns, hstands⟩ := (Stands.start (before ++ rest)).exists_runs hbegins
    have hfull := hdeep.full
    have hitem := hdeep.item
    rw [List.nil_append] at hstands
    rw [hstands.tracks.enclosing_eq] at hfull
    rw [hstands.tracks.quote_iff] at hitem
    obtain ⟨rest', hstep⟩ := step_eq_tooDeep_iff.mpr ⟨hfull, hitem⟩
    rw [hruns.expression_eq, expression_eq_resume, hstep]
    rfl

end Pushdown

/-! ### Texts -/

/-- The end of the input comes behind the tokens of a text. -/
lemma exists_tokenize_eq_iff {s : String} {before : List Token} {t : Token} :
    (∃ after, tokenize s = before ++ t :: after) ↔
      ∃ rest, (Source.ofString s).tokens.1 = before ++ rest ∧ Pushdown.next rest = t := by
  unfold tokenize
  constructor
  · rintro ⟨after, hafter⟩
    rcases List.eq_nil_or_concat after with rfl | ⟨after, u, rfl⟩
    · obtain ⟨hbefore, ht⟩ := List.append_inj' hafter rfl
      exact ⟨[], by rw [hbefore, List.append_nil], List.singleton_inj.mp ht⟩
    · have hsplit : (Source.ofString s).tokens.1 ++ [Token.endOfInput] =
          (before ++ t :: after) ++ [u] := by
        rw [hafter]
        simp
      exact ⟨t :: after, (List.append_inj' hsplit rfl).1, rfl⟩
  · rintro ⟨rest, hrest, rfl⟩
    rw [hrest, List.append_assoc]
    cases rest with
    | nil => exact ⟨[], rfl⟩
    | cons u rest => exact ⟨rest ++ [Token.endOfInput], rfl⟩

/-- A text is refused as too deep exactly if, before any other fault, an item of its first
expression comes where 256 lists and quotes are open. -/
theorem parseExpr_eq_tooDeep_iff (s : String) :
    parseExpr s = .error .tooDeep ↔
      ∃ before t after, tokenize s = before ++ t :: after ∧ Token.IsTooDeep before t := by
  have hproper : ∀ t ∈ (Source.ofString s).tokens.1, t.kind ≠ .eof ∧ t.kind ≠ .error := by
    refine (Token.lexes_tokens_ofList s.toList).forall_mem fun t r rest ht => ?_
    exact ⟨ht.isProper.1, ht.isProper.2.1⟩
  rw [parseExpr_eq, Pushdown.expression_eq_tooDeep_iff hproper]
  constructor
  · rintro ⟨before, rest, hrest, hdeep⟩
    obtain ⟨after, hafter⟩ := exists_tokenize_eq_iff.mpr ⟨rest, hrest, rfl⟩
    exact ⟨before, _, after, hafter, hdeep⟩
  · rintro ⟨before, t, after, hafter, hdeep⟩
    obtain ⟨rest, hrest, rfl⟩ := exists_tokenize_eq_iff.mp ⟨after, hafter⟩
    exact ⟨before, rest, hrest, hdeep⟩

/-! ### A number inside lists -/

/-- A number inside `n` lists, each the only item of the next. -/
def numberInside (n : ℕ) : String :=
  String.ofList (List.replicate n '(' ++ '1' :: List.replicate n ')')

namespace Pushdown

open Token

/-- Opening parentheses. -/
def openers (n : ℕ) : List Token :=
  List.replicate n { kind := .lparen, text := "(" }

/-- Opening parentheses are spelled as such. -/
lemma lexes_openers {cs : List Char} {ts : List Token} (h : Lexes cs ts) (n : ℕ) :
    Lexes (List.replicate n '(' ++ cs) (openers n ++ ts) := by
  induction n with
  | zero => exact h
  | succ n ih => exact Lexes.spelled (r := ['(']) .lparen ih

/-- Opening parentheses are read as long as there is room. -/
lemma exists_runs_openers {n : ℕ} (frames : List Frame) (h : frames.length + n ≤ depthLimit)
    (rest : List Token) :
    ∃ frames', frames'.length = frames.length + n ∧
      Runs frames (openers n ++ rest) frames' rest := by
  induction n generalizing frames with
  | zero => exact ⟨frames, rfl, .refl⟩
  | succ n ih =>
    have hroom : (Frame.list [] :: frames).length + n ≤ depthLimit := by
      rw [List.length_cons]
      omega
    obtain ⟨frames', hlength, hruns⟩ := ih (.list [] :: frames) hroom
    refine ⟨frames', ?_, .head (.lparen rfl (by omega)) hruns⟩
    rw [hlength, List.length_cons]
    omega

end Pushdown

/-- The tokens of a number inside lists. -/
lemma tokens_numberInside (n : ℕ) :
    (Source.ofString (numberInside n)).tokens.1 =
      Pushdown.openers n ++ { kind := .number, text := "1" } :: Pushdown.closers n := by
  refine Token.tokens_ofList_eq ?_
  rw [numberInside, String.toList_ofList]
  refine Pushdown.lexes_openers (Token.Lexes.spelled (r := ['1']) (.number ?_ ?_ ?_)
    (Pushdown.lexes_closers n)) n
  · decide
  · simp
  · cases n <;> simp [List.replicate_succ, Char.isDigit]

/-- Nowhere in it are more lists open than there are. -/
lemma enclosing_numberInside_le {n : ℕ} {before : List Token}
    (h : before <+: tokenize (numberInside n)) : Token.enclosing before ≤ n := by
  have hlparen : Token.count .lparen (tokenize (numberInside n)) = n := by
    rw [tokenize, tokens_numberInside]
    simp [Token.count, Pushdown.openers, Pushdown.closers, List.countP_replicate,
      Token.endOfInput]
  have hquote : Token.count .quote (tokenize (numberInside n)) = 0 := by
    rw [tokenize, tokens_numberInside]
    simp [Token.count, Pushdown.openers, Pushdown.closers, List.countP_replicate,
      Token.endOfInput]
  calc Token.enclosing before
      ≤ Token.count .lparen before + Token.count .quote before := Token.enclosing_le_count before
    _ ≤ Token.count .lparen (tokenize (numberInside n)) +
          Token.count .quote (tokenize (numberInside n)) :=
        Nat.add_le_add h.sublist.countP_le h.sublist.countP_le
    _ = n := by rw [hlparen, hquote, Nat.add_zero]

/-- A number inside 256 lists is refused, although nowhere are more than 256 lists and quotes
open. -/
theorem numberInside_tooDeep :
    parseExpr (numberInside 256) = .error .tooDeep ∧
      ∀ before, before <+: tokenize (numberInside 256) → Token.enclosing before ≤ 256 := by
  refine ⟨?_, fun before hbefore => enclosing_numberInside_le hbefore⟩
  have htokens := tokens_numberInside depthLimit
  obtain ⟨frames, hlength, hruns⟩ := Pushdown.exists_runs_openers [] (Nat.zero_add _).le
    ({ kind := .number, text := "1" } :: Pushdown.closers depthLimit)
  have hstep : ∃ rest, Pushdown.step frames
      ({ kind := .number, text := "1" } :: Pushdown.closers depthLimit) =
        .stop (.error .tooDeep) rest := by
    refine Pushdown.step_eq_tooDeep_iff.mpr ⟨?_, by simp [Pushdown.next]⟩
    rw [hlength, List.length_nil, Nat.zero_add]
  obtain ⟨rest, hstep⟩ := hstep
  rw [← htokens] at hruns
  calc parseExpr (numberInside 256)
      = (Pushdown.expression [] (Source.ofString (numberInside depthLimit)).tokens.1).1 :=
        parseExpr_eq _
    _ = .error .tooDeep := by
        rw [hruns.expression_eq, Pushdown.expression_eq_resume, hstep]
        rfl

end TinyLisp
