import Mathlib.Data.Finset.Basic
import Mathlib.Data.Nat.Digits.Defs
import TinyLisp.Proofs.Expr.Grammar
import TinyLisp.Proofs.Expr.Pending
import TinyLisp.Proofs.Text.Decimal
import TinyLisp.Proofs.Token.Layout

/-!
# What literals denote

A text has many spellings as a string literal, because any of its characters may be
escaped and only quotes and backslashes must be (`Token.escapeAt`).  All of them denote
the text, whatever follows the closing quote, and also if the input ends before it
(`parseExpr_literal`).  The lexer keeps the quotes around the text and the parser takes
them off again; both agree because a literal that is cut short is marked as such.

A run of digits denotes the number whose decimal notation it is (`Decimal.positional`),
a minus sign before it makes the number negative, and a number out of range is refused as
it is written (`parseExpr_digits`).
-/

namespace TinyLisp

/-! ### String literals -/

namespace Token

/-- The text with a backslash before each character whose position is marked. -/
def escapeAt (marked : Finset ℕ) (text : String) : String :=
  String.ofList (text.toList.zipIdx.flatMap fun p => if p.2 ∈ marked then ['\\', p.1] else [p.1])

/-- The marks are good enough to spell the text: they are on every quote and on every
backslash of it. -/
def MarksSpecial (marked : Finset ℕ) (text : String) : Prop :=
  ∀ i, text.toList[i]? = some '\x22' ∨ text.toList[i]? = some '\\' → i ∈ marked

/-- Escaping the marked characters of a text spells it, from any position on. -/
lemma encodes_zipIdx {marked : Finset ℕ} (text : List Char) (n : ℕ)
    (h : ∀ p ∈ text.zipIdx n, p.1 = '\x22' ∨ p.1 = '\\' → p.2 ∈ marked) :
    Encodes ((text.zipIdx n).flatMap fun p => if p.2 ∈ marked then ['\\', p.1] else [p.1])
      text := by
  induction text generalizing n with
  | nil => exact .nil
  | cons c text ih =>
    rw [List.zipIdx_cons] at h
    obtain ⟨hc, htext⟩ := List.forall_mem_cons.mp h
    rw [List.zipIdx_cons, List.flatMap_cons]
    dsimp only at hc ⊢
    split_ifs with hmarked
    · exact .escaped (ih (n + 1) htext)
    · have hplain := mt hc hmarked
      rw [not_or] at hplain
      exact .plain hplain.1 hplain.2 (ih (n + 1) htext)

/-- A text whose special characters are marked is spelled by escaping what is marked. -/
lemma encodes_escapeAt {marked : Finset ℕ} {text : String} (h : MarksSpecial marked text) :
    Encodes (escapeAt marked text).toList text.toList := by
  rw [escapeAt, String.toList_ofList]
  refine encodes_zipIdx text.toList 0 fun p hp hspecial => h p.2 ?_
  have hchar : text.toList[p.2]? = some p.1 := List.mem_zipIdx_iff_getElem?.mp hp
  rw [hchar]
  exact hspecial.imp (congrArg some) (congrArg some)

/-- A closed literal denotes what stands between its quotes. -/
lemma content_closed (text : String) :
    content { kind := .string, text := "\"" ++ text ++ "\"", truncated := false } = text := by
  simp [content]

/-- A literal that is cut short denotes all that stands behind its quote, even if the last
of it is a quote. -/
lemma content_truncated (text : String) :
    content { kind := .string, text := "\"" ++ text, truncated := true } = text := by
  simp [content]

end Token

/-- The tokens of a text are those that it spells, and the end of the input. -/
lemma tokenize_of_lexes {s : String} {ts : List Token} (h : Token.Lexes s.toList ts) :
    tokenize s = ts ++ [Token.endOfInput] := by
  have htokens : (Source.ofString s).tokens.1 = ts := Token.tokens_ofList_eq h
  rw [tokenize, htokens]

/-- A string literal that comes first is the text that it denotes. -/
lemma parseExpr_of_string {s : String} {t : Token} {ts : List Token}
    (hlexes : Token.Lexes s.toList (t :: ts)) (ht : t.kind = .string) :
    parseExpr s = .ok (.text t.content) := by
  have htokens : (Source.ofString s).tokens.1 = [t] ++ ts := Token.tokens_ofList_eq hlexes
  rw [parseExpr_eq, htokens, Pushdown.expression_leaf (.string ht) [] (by decide)]
  rfl

/-- Every spelling of a text between quotes is read as one string literal and denotes the
text.  What follows the closing quote keeps its own tokens.  If the closing quote is missing,
perhaps behind a backslash with nothing to escape, the literal is marked as cut short and
denotes the same text. -/
theorem parseExpr_literal {text : String} {marked : Finset ℕ} (h : Token.MarksSpecial marked text)
    (rest : String) :
    tokenize ("\"" ++ Token.escapeAt marked text ++ "\"" ++ rest) =
        { kind := .string, text := "\"" ++ text ++ "\"", truncated := false } :: tokenize rest ∧
      parseExpr ("\"" ++ Token.escapeAt marked text ++ "\"" ++ rest) = .ok (.text text) ∧
      ∀ tail, tail = "" ∨ tail = "\\" →
        tokenize ("\"" ++ Token.escapeAt marked text ++ tail) =
            [{ kind := .string, text := "\"" ++ text, truncated := true }, Token.endOfInput] ∧
          parseExpr ("\"" ++ Token.escapeAt marked text ++ tail) = .ok (.text text) := by
  have hencodes := Token.encodes_escapeAt h
  have hrest := Token.lexes_tokens_ofList rest.toList
  have hclosed : Token.Lexes ("\"" ++ Token.escapeAt marked text ++ "\"" ++ rest).toList
      ({ kind := .string, text := "\"" ++ text ++ "\"", truncated := false } ::
        (Source.ofString rest).tokens.1) := by
    simpa [Source.ofString, String.append_assoc] using
      Token.Lexes.spelled (.string hencodes) hrest
  refine ⟨tokenize_of_lexes hclosed, ?_, fun tail htail => ?_⟩
  · have hparse := parseExpr_of_string hclosed rfl
    rwa [Token.content_closed] at hparse
  · have hopen : Token.Lexes ("\"" ++ Token.escapeAt marked text ++ tail).toList
        [{ kind := .string, text := "\"" ++ text, truncated := true }] := by
      have hend : Token.Lexes [] [] := .nil (by simp)
      rcases htail with rfl | rfl
      · simpa using Token.Lexes.spelled (.openString hencodes) hend
      · simpa using Token.Lexes.spelled (.brokenString hencodes) hend
    have hparse := parseExpr_of_string hopen rfl
    rw [Token.content_truncated] at hparse
    exact ⟨tokenize_of_lexes hopen, hparse⟩

/-- A text that ends in a quote and has a backslash before it, spelled with one mark more than
needed, before a list and at the end of the input. -/
theorem parseExpr_literal_quoted :
    Token.MarksSpecial {0, 1, 2} "n\\\"" ∧
      Token.escapeAt {0, 1, 2} "n\\\"" = "\\n\\\\\\\"" ∧
      tokenize "\"\\n\\\\\\\"\"()" =
        { kind := .string, text := "\"n\\\"\"", truncated := false } :: tokenize "()" ∧
      parseExpr "\"\\n\\\\\\\"\"()" = .ok (.text "n\\\"") ∧
      parseExpr "\"\\n\\\\\\\"\\" = .ok (.text "n\\\"") := by
  have hmarked : Token.MarksSpecial {0, 1, 2} "n\\\"" := by
    intro i hi
    match i with
    | 0 | 1 | 2 => decide
    | i + 3 => simp at hi
  have hspelling : Token.escapeAt {0, 1, 2} "n\\\"" = "\\n\\\\\\\"" := by decide
  obtain ⟨htokens, hclosed, hopen⟩ := parseExpr_literal hmarked "()"
  have hbroken := (hopen "\\" (Or.inr rfl)).2
  rw [hspelling] at htokens hclosed hbroken
  exact ⟨hmarked, hspelling, htokens, hclosed, hbroken⟩

/-! ### Numbers -/

namespace Decimal

/-- A digit, then digits and underscores. -/
def IsDigitRun (digits : String) : Prop :=
  ∃ c cs, digits.toList = c :: cs ∧ c.isDigit ∧ ∀ d ∈ cs, d.isDigit ∨ d = '_'

/-- The number whose decimal notation the digits of a run are: the last of them counts once,
and each one before it ten times as much as the next. -/
def positional (digits : String) : ℕ :=
  Nat.ofDigits 10 ((digits.toList.filter Char.isDigit).reverse.map fun c => c.toNat - '0'.toNat)

/-- Reading digits from the first to the last gives the number in positional notation. -/
lemma ofDigitChars_eq_ofDigits (digits : List Char) :
    Nat.ofDigitChars 10 digits 0 =
      Nat.ofDigits 10 (digits.reverse.map fun c => c.toNat - '0'.toNat) := by
  rw [Nat.ofDigitChars_eq_foldl, List.foldl_eq_foldr_reverse, Nat.ofDigits_eq_foldr,
    List.foldr_map]
  simp only [Nat.add_comm, Nat.cast_id]

/-- In a run of digits, whatever is no underscore is a digit. -/
lemma IsDigitRun.filter_eq {digits : String} (h : IsDigitRun digits) :
    digits.toList.filter (· ≠ '_') = digits.toList.filter Char.isDigit := by
  obtain ⟨c, cs, hdigits, hc, hcs⟩ := h
  refine List.filter_congr fun d hd => ?_
  have hd' : d.isDigit ∨ d = '_' := by
    rw [hdigits, List.mem_cons] at hd
    rcases hd with rfl | hd
    · exact Or.inl hc
    · exact hcs d hd
  rcases hd' with hdigit | rfl
  · have hne : d ≠ '_' := by
      rintro rfl
      simp [Char.isDigit] at hdigit
    simp [hdigit, hne]
  · decide

/-- The value of a run of digits is the number in positional notation. -/
lemma IsDigitRun.value_eq {digits : String} (h : IsDigitRun digits) :
    value digits.toList = positional digits := by
  rw [value, h.filter_eq, ofDigitChars_eq_ofDigits, positional]

/-- A run of digits at the end of a text spells a number. -/
lemma IsDigitRun.lexes {digits : String} (h : IsDigitRun digits) :
    Token.Lexes digits.toList [{ kind := .number, text := digits }] := by
  obtain ⟨c, cs, hdigits, hc, hcs⟩ := h
  have hend : Token.Lexes [] [] := .nil (by simp)
  have hspelled := Token.Lexes.spelled (.number hc hcs (by simp)) hend
  rwa [List.append_nil, ← hdigits, String.ofList_toList] at hspelled

end Decimal

namespace Pushdown

/-- A number at the top level is what it denotes if it is in range, and otherwise it is
refused as it is written. -/
lemma resume_number (negative : Bool) (digits : String) (rest : List Token) :
    (Decimal.value digits.toList ≤ Decimal.bound negative →
        ∃ n : Int64, n.toInt = Decimal.signed negative (Decimal.value digits.toList) ∧
          resume (number [] negative digits rest) = (.ok (.number n), rest)) ∧
      (Decimal.bound negative < Decimal.value digits.toList →
        resume (number [] negative digits rest) =
          (.error (.invalidNumber (if negative then "-" ++ digits else digits)), rest)) := by
  constructor
  · intro hle
    obtain ⟨n, hn⟩ :=
      Option.isSome_iff_exists.mp ((Decimal.isSome_read?_iff negative digits).mpr hle)
    refine ⟨n, ((Decimal.read?_eq_some_iff negative digits n).mp hn).2, ?_⟩
    simp [number, hn, deliver, resume]
  · intro hlt
    have hnone : Decimal.read? negative digits = none := by
      rw [← Option.not_isSome_iff_eq_none, Decimal.isSome_read?_iff]
      exact Nat.not_le.mpr hlt
    simp [number, hnone, resume]

/-- A number that comes first is completed at once. -/
lemma expression_number {t : Token} (ht : t.kind = .number) (rest : List Token) :
    expression [] (t :: rest) = resume (number [] false t.text rest) := by
  rw [expression_eq_resume, step_eq_start rest (by decide) (by simp [ht]) (by simp [ht])]
  simp [start, ht]

/-- So is a number behind a minus sign. -/
lemma expression_minus_number {m t : Token} (hm : m.kind = .minus) (ht : t.kind = .number)
    (rest : List Token) :
    expression [] (m :: t :: rest) = resume (number [] true t.text rest) := by
  rw [expression_eq_resume, step_eq_start _ (by decide) (by simp [hm]) (by simp [hm])]
  simp [start, hm, next, ht]

end Pushdown

/-- A run of digits is read as the number whose decimal notation it is, and behind a minus
sign, with any blanks between the two, as its negative.  A number that is out of range is
refused, and the run is reported as it is written, with its sign. -/
theorem parseExpr_digits {digits blank : String} (h : Decimal.IsDigitRun digits)
    (hblank : ∀ c ∈ blank.toList, c ∈ blanks) :
    (Decimal.positional digits ≤ 2 ^ 63 - 1 →
        ∃ n : Int64, n.toInt = Decimal.positional digits ∧ parseExpr digits = .ok (.number n)) ∧
      (2 ^ 63 - 1 < Decimal.positional digits →
        parseExpr digits = .error (.invalidNumber digits)) ∧
      (Decimal.positional digits ≤ 2 ^ 63 →
        ∃ n : Int64, n.toInt = -Decimal.positional digits ∧
          parseExpr ("-" ++ blank ++ digits) = .ok (.number n)) ∧
      (2 ^ 63 < Decimal.positional digits →
        parseExpr ("-" ++ blank ++ digits) = .error (.invalidNumber ("-" ++ digits))) := by
  have hsigned : Token.Lexes ("-" ++ blank ++ digits).toList
      [{ kind := .minus, text := "-" }, { kind := .number, text := digits }] := by
    simpa using Token.Lexes.spelled .minus (h.lexes.blanks_append hblank)
  have hpos : parseExpr digits =
      (Pushdown.resume (Pushdown.number [] false digits [])).1 := by
    rw [parseExpr_eq, Source.ofString, Token.tokens_ofList_eq h.lexes,
      Pushdown.expression_number rfl]
  have hneg : parseExpr ("-" ++ blank ++ digits) =
      (Pushdown.resume (Pushdown.number [] true digits [])).1 := by
    rw [parseExpr_eq, Source.ofString, Token.tokens_ofList_eq hsigned,
      Pushdown.expression_minus_number rfl rfl]
  obtain ⟨hread, hrefused⟩ := Pushdown.resume_number false digits []
  obtain ⟨hreadneg, hrefusedneg⟩ := Pushdown.resume_number true digits []
  rw [h.value_eq] at hread hrefused hreadneg hrefusedneg
  rw [hpos, hneg]
  refine ⟨fun hle => ?_, fun hlt => ?_, fun hle => ?_, fun hlt => ?_⟩
  · obtain ⟨n, hn, heq⟩ := hread hle
    exact ⟨n, hn, congrArg Prod.fst heq⟩
  · exact congrArg Prod.fst (hrefused hlt)
  · obtain ⟨n, hn, heq⟩ := hreadneg hle
    exact ⟨n, hn, congrArg Prod.fst heq⟩
  · exact congrArg Prod.fst (hrefusedneg hlt)

/-- The least magnitude that only a negative number has, written with a leading zero and
underscores, and with its sign on the line before. -/
theorem parseExpr_digits_least :
    Decimal.IsDigitRun "0_9223372036854775808_" ∧
      parseExpr "0_9223372036854775808_" = .error (.invalidNumber "0_9223372036854775808_") ∧
      parseExpr "-\n\t0_9223372036854775808_" = .ok (.number Int64.minValue) := by
  have hrun : Decimal.IsDigitRun "0_9223372036854775808_" :=
    ⟨'0', "_9223372036854775808_".toList, rfl, rfl, by simp [Char.isDigit]⟩
  have hvalue : Decimal.positional "0_9223372036854775808_" = 2 ^ 63 := by decide +kernel
  have hblank : ∀ c ∈ "\n\t".toList, c ∈ blanks := by simp [blanks]
  obtain ⟨-, hrefused, hread, -⟩ := parseExpr_digits hrun hblank
  rw [hvalue] at hrefused hread
  obtain ⟨n, hn, heq⟩ := hread (Nat.le_refl _)
  obtain rfl : n = Int64.minValue := Int64.toInt_inj.mp hn
  exact ⟨hrun, hrefused (by decide), heq⟩

end TinyLisp
