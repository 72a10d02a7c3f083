import TinyLisp.Proofs.Expr.Language
import TinyLisp.Proofs.Expr.Run
import TinyLisp.Proofs.Token.Continuation

/-!
# Sources one behind the other

What is written behind a source can change what is read off it in two ways only.  The
last token of the source may grow, and a minus sign at its end may find its number.

Neither happens where another source is written on the next line, unless a string literal
is cut short or a minus sign comes before a number.  Then the expressions of both sources
are read one after the other, and a fault of the second is found as it is
(`parseScript_append_newline`).  Neither happens behind a list, because its last token is a
closing parenthesis.  So nothing that is written behind a list changes it, not even without
a separator (`parseExpr_append`).
-/

namespace TinyLisp

namespace Pushdown

/-! ### Scripts -/

/-- Behind the tokens of a script, another script is read as it is by itself. -/
theorem script_append {ts us : List Token} {xs : List Expr} (h : (script ts).1 = .ok xs)
    (hnext : MayFollow ts [] us) :
    script (ts ++ us) = ((script us).1.map (xs ++ ·), (script us).2) := by
  refine script_induction (motive := fun ts xs => MayFollow ts [] us →
    script (ts ++ us) = ((script us).1.map (xs ++ ·), (script us).2)) ?_ ?_ h hnext
  · intro _
    cases hscript : script us with
    | mk outcome rest => cases outcome <;> simp [Except.map, hscript]
  · intro ts rest e es hexpr ih hnext
    obtain ⟨used, rfl, hbefore⟩ := expression_before hexpr
    -- the seam follows this expression only if it is the last one
    have hseam : MayFollow used rest (rest ++ us) := by
      cases rest with
      | nil => rwa [List.append_nil] at hnext
      | cons t rest => exact fun _ => id
    have hrest : script (rest ++ us) = ((script us).1.map (es ++ ·), (script us).2) :=
      ih fun hminus => hnext (hminus.append_left used)
    rw [List.append_assoc, script_of_ok (hbefore _ hseam), hrest]
    cases (script us).1 <;> rfl

/-! ### Lists -/

/-- A list is complete with a closing parenthesis. -/
lemma Moves.exists_rparen {frames : List Frame} {ts rest : List Token} {e : Expr}
    (h : Moves frames ts (.stop (.ok e) rest)) (he : e.quote? ≠ none) :
    ∃ t, ts = t :: rest ∧ t.kind = .rparen := by
  generalize hturn : Turn.stop (.ok e) rest = turn at h
  cases h with
  | @leaf _ used rest' x hleaf _ =>
    have hhead := hleaf.head?_ne_quote (by rw [← hturn]; rfl)
    cases frames with
    | nil =>
      obtain ⟨hok, -⟩ := Turn.stop.inj hturn
      obtain rfl := Except.ok.inj hok
      exact absurd hleaf.quote?_eq_none he
    | cons frame outer =>
      cases frame with
      | list items => simp [deliver] at hturn
      | quote => exact absurd rfl hhead
  | lparen _ _ => simp at hturn
  | quote _ _ => simp at hturn
  | @rparen items outer t rest' ht =>
    have hrest := congrArg Turn.rest hturn
    rw [rest_deliver, rest_stop] at hrest
    exact ⟨t, by rw [hrest], ht⟩

/-- The last token of a list is a closing parenthesis. -/
lemma exists_used_of_list {frames : List Frame} {ts rest : List Token} {e : Expr}
    (h : expression frames ts = (.ok e, rest)) (he : e.quote? ≠ none) :
    ∃ used, ts = used ++ rest ∧ Token.EndsWith .rparen used := by
  refine expression_induction (motive := fun _ ts e rest => e.quote? ≠ none →
    ∃ used, ts = used ++ rest ∧ Token.EndsWith .rparen used) ?_ ?_ h he
  · intro frames ts e rest hmoves he
    obtain ⟨t, rfl, ht⟩ := hmoves.exists_rparen he
    exact ⟨[t], rfl, (Token.endsWith_concat .rparen [] t).mpr ht⟩
  · intro frames frames' ts ts' e rest hmoves ih he
    obtain ⟨used, rfl, hlast⟩ := ih he
    obtain ⟨t, us, hts⟩ := hmoves.exists_used
    refine ⟨t :: us ++ used, ?_, hlast.append_left _⟩
    rw [hts, rest_go, List.append_assoc]

/-- Whatever tokens follow, a list is the same list. -/
theorem expression_list_before {ts rest : List Token} {e : Expr}
    (h : expression [] ts = (.ok e, rest)) (he : e.quote? ≠ none) :
    ∃ used, ts = used ++ rest ∧ Token.EndsWith .rparen used ∧
      ∀ rest', expression [] (used ++ rest') = (.ok e, rest') := by
  obtain ⟨used, rfl, hlast⟩ := exists_used_of_list h he
  obtain ⟨used', hused, hbefore⟩ := expression_before h
  obtain rfl := List.append_cancel_right hused
  refine ⟨used, rfl, hlast, fun rest' => hbefore rest' fun hminus => ?_⟩
  have hkind := hminus.symm.trans hlast
  simp at hkind

end Pushdown

/-! ### Texts -/

/-- The tokens of two texts on lines of their own come one after the other. -/
lemma tokens_append_newline {a b : String}
    (h : ∀ t ∈ (Source.ofString a).tokens.1, t.truncated = false) :
    (Source.ofString (a ++ "\n" ++ b)).tokens.1 =
      (Source.ofString a).tokens.1 ++ (Source.ofString b).tokens.1 := by
  have ha : Token.Lexes a.toList (Source.ofString a).tokens.1 := Token.lexes_tokens_ofList _
  have hb : Token.Lexes b.toList (Source.ofString b).tokens.1 := Token.lexes_tokens_ofList _
  refine Token.tokens_ofList_eq ?_
  simpa using ha.append_newline h hb

/-- A script that is written on the lines behind another one adds its expressions to those of
the first, or its fault.  No string literal of the first may be cut short, and a minus sign
at its end must not come before a number. -/
theorem parseScript_append_newline {a b : String} {xs : List Expr} (ha : parseScript a = .ok xs)
    (hwhole : ∀ t ∈ tokenize a, t.truncated = false)
    (hseam : ¬(Token.EndsWith .minus (Source.ofString a).tokens.1 ∧
      ∃ t ∈ (Source.ofString b).tokens.1.head?, t.kind = .number)) :
    parseScript (a ++ "\n" ++ b) = (parseScript b).map (xs ++ ·) := by
  have htokens : (Source.ofString (a ++ "\n" ++ b)).tokens.1 =
      (Source.ofString a).tokens.1 ++ (Source.ofString b).tokens.1 :=
    tokens_append_newline fun t ht => hwhole t (List.mem_append_left _ ht)
  have hnext : Pushdown.MayFollow (Source.ofString a).tokens.1 [] (Source.ofString b).tokens.1 := by
    intro hminus hnumber
    refine absurd ⟨hminus, ?_⟩ hseam
    cases hb : (Source.ofString b).tokens.1 with
    | nil => simp [hb, Pushdown.next, Token.endOfInput] at hnumber
    | cons t us => exact ⟨t, rfl, by simpa [hb, Pushdown.next] using hnumber⟩
  rw [parseScript_eq] at ha
  rw [parseScript_eq, htokens, Pushdown.script_append ha hnext, parseScript_eq]

/-- The first source ends with a minus sign, and the second has a minus sign before its number
and a parenthesis too many. -/
theorem parseScript_append_newline_minus :
    parseScript "'(f \"x\")12 -" =
        .ok [.quoted [.atom "f", .text "x"], .number 12, .atom "-"] ∧
      (∀ t ∈ tokenize "'(f \"x\")12 -", t.truncated = false) ∧
      ¬(Token.EndsWith .minus (Source.ofString "'(f \"x\")12 -").tokens.1 ∧
        ∃ t ∈ (Source.ofString "-5)").tokens.1.head?, t.kind = .number) ∧
      parseScript ("'(f \"x\")12 -" ++ "\n" ++ "-5)") = (parseScript "-5)").map
        ([.quoted [.atom "f", .text "x"], .number 12, .atom "-"] ++ ·) := by
  have ha : parseScript "'(f \"x\")12 -" =
      .ok [.quoted [.atom "f", .text "x"], .number 12, .atom "-"] := by decide +kernel
  have hwhole : ∀ t ∈ tokenize "'(f \"x\")12 -", t.truncated = false := by decide +kernel
  have hseam : ¬(Token.EndsWith .minus (Source.ofString "'(f \"x\")12 -").tokens.1 ∧
      ∃ t ∈ (Source.ofString "-5)").tokens.1.head?, t.kind = .number) := by
    have hhead : (Source.ofString "-5)").tokens.1.head? = some { kind := .minus, text := "-" } := by
      decide +kernel
    simp [hhead]
  exact ⟨ha, hwhole, hseam, parseScript_append_newline ha hwhole hseam⟩

/-- Nothing that is written behind a list changes it. -/
theorem parseExpr_append {a : String} {e : Expr} (ha : parseExpr a = .ok e)
    (he : (∃ items, e = .list items) ∨ ∃ items, e = .quoted items) (t : String) :
    parseExpr (a ++ t) = .ok e := by
  have hquote : e.quote? ≠ none := by
    rcases he with ⟨items, rfl⟩ | ⟨items, rfl⟩ <;> simp [Expr.quote?]
  rw [parseExpr_eq] at ha
  obtain ⟨used, hused, hlast, hbefore⟩ := Pushdown.expression_list_before (Prod.ext ha rfl) hquote
  have hlexes : Token.Lexes a.toList (Source.ofString a).tokens.1 := Token.lexes_tokens_ofList _
  rw [hused] at hlexes
  obtain ⟨us, hus⟩ := hlexes.exists_append_of_rparen hlast t.toList
  have htokens : (Source.ofString (a ++ t)).tokens.1 = used ++ us := by
    refine Token.tokens_ofList_eq ?_
    rwa [String.toList_append]
  rw [parseExpr_eq, htokens, hbefore]

/-- The text behind the list makes another number of what stood there, and opens a string
literal. -/
theorem parseExpr_append_digits :
    parseExpr "'(- (a))12" = .ok (.quoted [.atom "-", .list [.atom "a"]]) ∧
      parseExpr ("'(- (a))12" ++ "3_(\"") = .ok (.quoted [.atom "-", .list [.atom "a"]]) := by
  have ha : parseExpr "'(- (a))12" = .ok (.quoted [.atom "-", .list [.atom "a"]]) := by
    decide +kernel
  exact ⟨ha, parseExpr_append ha (Or.inr ⟨_, rfl⟩) "3_(\""⟩

end TinyLisp
