import TinyLisp.Proofs.Expr.Grammar
import TinyLisp.Proofs.Expr.Pending
import TinyLisp.Proofs.Text.Decimal
import TinyLisp.Proofs.Token.Layout

/-!
# Renderings are read back

Well-formed expressions are rendered, put one after the other, and laid out with any
blanks.  Reading the result gives the same expressions again.

In between stand the tokens of a rendering (`Expr.tokens`).  Every layout of the
rendering yields these tokens (`yields_itemChars`), and they spell the expressions
(`spells_tokensAll`).  All that can get lost on the way is a name `-` right before a zero,
which is read as its sign (`Expr.absorb`).
-/

namespace TinyLisp

namespace Expr

/-! ### The tokens of a rendering -/

mutual

/-- The tokens of the rendering of an expression. -/
def tokens : Expr → List Token
  | .atom name =>
    if name = "-" then [{ kind := .minus, text := "-" }] else [{ kind := .atom, text := name }]
  | .number n =>
    (if n.toInt < 0 then [{ kind := .minus, text := "-" }] else []) ++
      [{ kind := .number, text := String.ofList (Nat.toDigits 10 n.toInt.natAbs) }]
  | .text s => [{ kind := .string, text := String.ofList ('\x22' :: s.toList ++ ['\x22']) }]
  | .list items =>
    { kind := .lparen, text := "(" } :: tokensAll items ++ [{ kind := .rparen, text := ")" }]
  | .quoted items =>
    { kind := .quote, text := "'" } :: { kind := .lparen, text := "(" } :: tokensAll items ++
      [{ kind := .rparen, text := ")" }]

/-- The tokens of the renderings of expressions. -/
def tokensAll : List Expr → List Token
  | [] => []
  | e :: es => tokens e ++ tokensAll es

end

/-! ### Every layout of a rendering yields its tokens -/

open Token

/-- What is no delimiter stays as it is in every layout. -/
lemma not_mem_of_not_mem_delimiters {c : Char} (h : c ∉ delimiters) :
    c ∉ [' ', '(', ')', '\x22'] := by
  simp only [delimiters, List.mem_cons, List.not_mem_nil, or_false, not_or] at h
  simp [h]

/-- A run of digits spells a number. -/
lemma spelling_digits (n : ℕ) {rest : List Char} (hrest : ∀ c ∈ rest.head?, c ∈ delimiters) :
    Spelling { kind := .number, text := String.ofList (Nat.toDigits 10 n) } (Nat.toDigits 10 n)
      rest := by
  obtain ⟨c, cs, hcs⟩ := List.exists_cons_of_ne_nil (Nat.toDigits_ne_nil (b := 10) (n := n))
  have hdigit : ∀ d ∈ c :: cs, d.isDigit :=
    fun d hd => Nat.isDigit_of_mem_toDigits (by decide) (by decide) (hcs ▸ hd)
  rw [hcs]
  refine .number (hdigit c List.mem_cons_self) ?_ ?_
  · exact fun d hd => Or.inl (hdigit d (List.mem_cons_of_mem c hd))
  · rintro d hd (hd' | rfl)
    · exact not_mem_delimiters_of_isDigit hd' (hrest d hd)
    · exact absurd (hrest _ hd) (by decide)

/-- A run of digits yields a number. -/
lemma yields_digits (n : ℕ) :
    Yields (Nat.toDigits 10 n)
      [{ kind := .number, text := String.ofList (Nat.toDigits 10 n) }] := by
  refine yields_of_plain (fun d hd => ?_) fun rest hrest => spelling_digits n hrest
  have hdigit : d.isDigit := Nat.isDigit_of_mem_toDigits (by decide) (by decide) hd
  exact not_mem_of_not_mem_delimiters (not_mem_delimiters_of_isDigit hdigit)

/-- A name other than a minus sign spells itself. -/
lemma spelling_name {name : String} (h : IsName name) (hminus : name ≠ "-") {rest : List Char}
    (hrest : ∀ c ∈ rest.head?, c ∈ delimiters) :
    Spelling { kind := .atom, text := name } name.toList rest := by
  obtain ⟨hne, hhead, hplain⟩ := h.resolve_left hminus
  cases hname : name.toList with
  | nil => exact absurd (String.toList_eq_nil_iff.mp hname) hne
  | cons c cs =>
    rw [hname] at hhead hplain
    have htext : name = String.ofList (c :: cs) := by rw [← hname, String.ofList_toList]
    rw [htext]
    exact .atom (hhead c rfl) hplain hrest

/-- A name yields its token. -/
lemma yields_name {name : String} (h : IsName name) : Yields name.toList (tokens (.atom name)) := by
  rw [tokens]
  split
  · next hminus =>
    rw [hminus]
    exact yields_nil.cons (by decide) fun rest => .minus
  · next hminus =>
    have hplain := (h.resolve_left hminus).2.2
    refine yields_of_plain (fun d hd => ?_) fun rest hrest => spelling_name h hminus hrest
    exact not_mem_of_not_mem_delimiters (hplain d hd)

/-- A number yields its tokens. -/
lemma yields_number (n : Int64) : Yields (chars (.number n)) (tokens (.number n)) := by
  rw [chars, tokens, Decimal.write_eq]
  split
  · exact (yields_digits _).cons (by decide) fun rest => .minus
  · exact yields_digits _

mutual

/-- Every layout of the rendering of a plain expression yields its tokens. -/
lemma yields_chars (e : Expr) (h : e.Plain) : Yields e.chars e.tokens := by
  cases e with
  | atom name => exact yields_name (h.names name (mem_nodes_self _))
  | number n => exact yields_number n
  | text s =>
    obtain ⟨hquote, hslash⟩ := h.texts s (mem_nodes_self _)
    rw [chars, tokens]
    exact yields_literal hquote hslash
  | list items =>
    rw [chars, tokens]
    exact (yields_itemChars items fun x hx => h.of_mem_items hx).parenthesized
  | quoted items =>
    rw [chars, tokens]
    exact (yields_itemChars items fun x hx => h.of_mem_items hx).parenthesized.cons
      (by decide) fun rest => .quote

/-- So does every layout of the renderings of a sequence. -/
lemma yields_itemChars (es : List Expr) (h : ∀ e ∈ es, e.Plain) :
    Yields (itemChars es) (tokensAll es) := by
  match es with
  | [] => exact yields_nil
  | [e] =>
    rw [itemChars, tokensAll, tokensAll, List.append_nil]
    exact yields_chars e (h e List.mem_cons_self)
  | e :: e' :: es =>
    rw [itemChars, tokensAll]
    · exact (yields_chars e (h e List.mem_cons_self)).append
        (yields_itemChars (e' :: es) fun x hx => h x (List.mem_cons_of_mem e hx))
    · simp

end

/-! ### What is read back

Even behind the name `-` a zero is rendered without a sign, so that the name is read as
its sign. -/

mutual

/-- The expression without the names `-` that are read as the sign of a zero. -/
def absorb : Expr → Expr
  | .list items => .list (absorbAll items)
  | .quoted items => .quoted (absorbAll items)
  | e => e

/-- The sequence of expressions without such names. -/
def absorbAll : List Expr → List Expr
  | [] => []
  | e :: es =>
    if e = .atom "-" ∧ es.head? = some (.number 0) then absorbAll es
    else absorb e :: absorbAll es

end

mutual

/-- Nothing becomes deeper. -/
lemma levels_absorb_le (e : Expr) : (absorb e).levels ≤ e.levels := by
  cases e with
  | list items => exact Nat.add_le_add_left (levelsAll_absorbAll_le items) 1
  | quoted items => exact Nat.add_le_add_left (levelsAll_absorbAll_le items) 2
  | _ => exact Nat.le_refl _

lemma levelsAll_absorbAll_le (es : List Expr) : levelsAll (absorbAll es) ≤ levelsAll es := by
  cases es with
  | nil => exact Nat.le_refl _
  | cons e es =>
    have hes := levelsAll_absorbAll_le es
    rw [absorbAll, levelsAll]
    split_ifs
    · exact hes.trans (Nat.le_max_right _ _)
    · exact Nat.max_le.mpr ⟨(levels_absorb_le e).trans (Nat.le_max_left _ _),
        hes.trans (Nat.le_max_right _ _)⟩

end

lemma length_absorbAll_le (es : List Expr) : (absorbAll es).length ≤ es.length := by
  induction es with
  | nil => exact Nat.le_refl _
  | cons e es ih =>
    rw [absorbAll]
    split_ifs
    · exact ih.trans (Nat.le_succ _)
    · exact Nat.succ_le_succ ih

/-- A sequence starts with `-` and a zero. -/
lemma minusZero_prefix_iff (e : Expr) (es : List Expr) :
    [.atom "-", .number 0] <+: e :: es ↔ e = .atom "-" ∧ es.head? = some (.number 0) := by
  cases es <;> simp [List.cons_prefix_cons, eq_comm]

mutual

/-- Nothing is left out of an expression in which no zero follows a name `-`. -/
lemma absorb_eq_self_iff (e : Expr) :
    absorb e = e ↔ ∀ x ∈ e.nodes, ¬[.atom "-", .number 0] <:+: x.items := by
  cases e with
  | list items =>
    rw [absorb, Expr.list.injEq]
    exact absorbAll_eq_self_iff items
  | quoted items =>
    rw [absorb, Expr.quoted.injEq, absorbAll_eq_self_iff, nodes, nodes, List.forall_mem_cons,
      List.forall_mem_cons]
    rfl
  | _ => simp [absorb, nodes, Expr.items]

lemma absorbAll_eq_self_iff (es : List Expr) :
    absorbAll es = es ↔ ∀ x ∈ (list es).nodes, ¬[.atom "-", .number 0] <:+: x.items := by
  cases es with
  | nil => simp [absorbAll, nodes, nodesAll, items]
  | cons e es =>
    rw [absorbAll]
    split_ifs with hzero
    · constructor
      · intro h
        have hle := length_absorbAll_le es
        rw [h, List.length_cons] at hle
        omega
      · intro h
        have hprefix := (minusZero_prefix_iff e es).mpr hzero
        exact absurd hprefix.isInfix (h _ (mem_nodes_self _))
    · rw [List.cons.injEq, absorb_eq_self_iff e, absorbAll_eq_self_iff es]
      simp only [nodes, nodesAll, Expr.items, List.forall_mem_cons, List.forall_mem_append,
        List.infix_cons_iff, minusZero_prefix_iff, hzero, false_or]
      tauto

end

/-- Where items do not run into each other, no zero follows a name `-`. -/
lemma Apart.not_minusZero {es : List Expr} (h : Apart es) : ¬[.atom "-", .number 0] <:+: es := by
  intro hpair
  have hchain := List.IsChain.infix h hpair
  have hneg := (List.isChain_cons_cons.mp hchain).1 rfl 0 rfl
  simp at hneg

/-! ### The tokens of a rendering spell what is read back -/

open Pushdown

/-- Only the tokens of a number that is not negative start with a number. -/
lemma kind_next_tokens {e : Expr} (ts : List Token)
    (h : ∀ n, e = .number n → n.toInt < 0) : (next (e.tokens ++ ts)).kind ≠ .number := by
  cases e with
  | atom name =>
    rw [tokens]
    split <;> simp [next]
  | number n =>
    rw [tokens, if_pos (h n rfl)]
    simp [next]
  | _ => simp [tokens, next]

/-- A minus sign before expressions takes no number, unless they start with one that is not
negative. -/
lemma kind_next_tokensAll {es : List Expr} {rest : List Token}
    (h : ∀ n, es.head? = some (.number n) → n.toInt < 0) (hrest : (next rest).kind ≠ .number) :
    (next (tokensAll es ++ rest)).kind ≠ .number := by
  cases es with
  | nil => exact hrest
  | cons x xs =>
    rw [tokensAll, List.append_assoc]
    exact kind_next_tokens _ fun n hn => h n (by rw [hn]; rfl)

/-- A name is a leaf. -/
lemma leaf_atom {name : String} {ts : List Token}
    (h : name = "-" → (next ts).kind ≠ .number) :
    Leaf (tokens (.atom name)) (.atom name) ts := by
  rw [tokens]
  split
  · next hminus =>
    rw [hminus]
    exact .minus rfl (h hminus)
  · exact .atom rfl

/-- A number is a leaf. -/
lemma leaf_number (n : Int64) (ts : List Token) : Leaf (tokens (.number n)) (.number n) ts := by
  have hread := Decimal.read?_toDigits n
  rw [tokens]
  split
  · next hneg =>
    rw [decide_eq_true hneg] at hread
    exact .negative rfl rfl hread
  · next hneg =>
    rw [decide_eq_false hneg] at hread
    exact .number rfl hread

/-- A text is a leaf. -/
lemma leaf_text (s : String) (ts : List Token) : Leaf (tokens (.text s)) (.text s) ts := by
  have hcontent : s = ({ kind := .string, text := String.ofList ('\x22' :: s.toList ++ ['\x22']) } :
      Token).content := by
    simp [content]
  rw [tokens]
  nth_rewrite 2 [hcontent]
  exact .string rfl

/-- The tokens of a rendering spell what is read back, if no number follows. -/
lemma spells_tokensAll (es : List Expr) (rest : List Token)
    (hnodes : ∀ x ∈ nodesAll es, x.items.IsChain MayPrecede) (hchain : es.IsChain MayPrecede)
    (hrest : (next rest).kind ≠ .number) : Spells (tokensAll es) (absorbAll es) rest := by
  match es with
  | [] => exact .nil
  | e :: es =>
    rw [nodesAll, nodes_eq] at hnodes
    have hes : Spells (tokensAll es) (absorbAll es) rest :=
      spells_tokensAll es rest (fun x hx => hnodes x (by simp [hx])) hchain.tail hrest
    have hitems : ∀ r ts, r.kind = .rparen →
        Spells (tokensAll e.items) (absorbAll e.items) (r :: ts) := by
      intro r ts hr
      have : sizeOf e.items < 1 + sizeOf e + sizeOf es := by
        cases e <;> simp [items] <;> omega
      refine spells_tokensAll e.items (r :: ts) (fun x hx => hnodes x (by simp [hx])) ?_ ?_
      · exact hnodes e (by simp)
      · simp [next, hr]
    rw [tokensAll, absorbAll]
    split_ifs with hzero
    · -- the minus sign and the zero behind it are read as one number
      obtain ⟨rfl, hhead⟩ := hzero
      obtain ⟨es, rfl⟩ := List.head?_eq_some_iff.mp hhead
      have hbehind : Spells (tokensAll es) (absorbAll es) rest := by
        refine spells_tokensAll es rest (fun x hx => hnodes x ?_) hchain.tail.tail hrest
        simp [nodesAll, hx]
      have hleaf : Leaf (tokens (.atom "-") ++ tokens (.number 0)) (.number 0)
          (tokensAll es ++ rest) := .negative rfl rfl (by decide)
      have hboth := Spells.leaf hleaf hbehind
      exact hboth
    · cases e with
      | atom name =>
        refine .leaf (leaf_atom fun hminus => kind_next_tokensAll (fun n hn => ?_) hrest) hes
        obtain ⟨es, rfl⟩ := List.head?_eq_some_iff.mp hn
        have hle : n.toInt ≤ 0 := (List.isChain_cons_cons.mp hchain).1 (by rw [hminus]) n rfl
        have hne : n ≠ 0 := by
          rintro rfl
          exact hzero ⟨by rw [hminus], rfl⟩
        have hne' : n.toInt ≠ 0 := fun h => hne (Int64.toInt_inj.mp h)
        omega
      | number n => exact .leaf (leaf_number n _) hes
      | text s => exact .leaf (leaf_text s _) hes
      | list items => exact .list rfl rfl (hitems _ _ rfl) hes
      | quoted items => exact .quoted rfl rfl rfl (hitems _ _ rfl) hes
termination_by sizeOf es

/-! ### Reading a rendering -/

/-- Renderings with single spaces between them are the rendering of a sequence. -/
lemma toList_intercalate_render (es : List Expr) :
    (" ".intercalate (es.map render)).toList = itemChars es := by
  induction es with
  | nil => rfl
  | cons e es ih =>
    cases es with
    | nil => simp [render, itemChars]
    | cons x xs =>
      rw [itemChars, ← ih]
      · simp [render]
      · simp

/-- Plain expressions without a positive number behind `-` are read back from every layout
of their renderings, but for the names `-` before a zero. -/
lemma parseScript_layout_absorbAll {es : List Expr} {source : String}
    (hplain : ∀ e ∈ es, e.Plain) (hsigns : ∀ x ∈ (list es).nodes, x.items.IsChain MayPrecede)
    (hlevels : levelsAll es ≤ depthLimit)
    (h : IsLayoutOf source (" ".intercalate (es.map render))) :
    parseScript source = .ok (absorbAll es) := by
  have hyields : Yields (" ".intercalate (es.map render)).toList (tokensAll es) := by
    rw [toList_intercalate_render]
    exact yields_itemChars es hplain
  rw [nodes, List.forall_mem_cons] at hsigns
  have hspells : Spells (tokensAll es) (absorbAll es) [] :=
    spells_tokensAll es [] hsigns.2 hsigns.1 (by simp [next, endOfInput])
  rw [parseScript_eq, tokens_of_isLayoutOf h hyields,
    script_of_spells hspells ((levelsAll_absorbAll_le es).trans hlevels)]

/-- Every layout of the renderings of well-formed expressions is read as these. -/
lemma parseScript_layout {es : List Expr} {source : String} (hes : ∀ e ∈ es, e.WellFormed)
    (hapart : Apart es) (h : IsLayoutOf source (" ".intercalate (es.map render))) :
    parseScript source = .ok es := by
  have hnodes : ∀ x ∈ (list es).nodes, Apart x.items := by
    intro x hx
    rw [nodes, List.mem_cons] at hx
    rcases hx with rfl | hx
    · exact hapart
    · obtain ⟨e, he, hxe⟩ := mem_nodesAll.mp hx
      exact (hes e he).apart x hxe
  have hlevels : levelsAll es ≤ depthLimit := levelsAll_le fun e he => (hes e he).levels_le
  rw [parseScript_layout_absorbAll (fun e he => (hes e he).plain)
    (fun x hx => (hnodes x hx).mayPrecede) hlevels h]
  rw [(absorbAll_eq_self_iff es).mpr fun x hx => (hnodes x hx).not_minusZero]

/-! ### A rendering as it is -/

/-- The characters of a name stay as they are in every layout. -/
lemma IsName.plain {name : String} (h : IsName name) :
    ∀ c ∈ name.toList, c ∉ [' ', '(', ')', '\x22'] := by
  rcases h with rfl | ⟨-, -, hplain⟩
  · simp
  · exact fun c hc => not_mem_of_not_mem_delimiters (hplain c hc)

/-- So do those of a number. -/
lemma plain_write (i : ℤ) : ∀ c ∈ Decimal.write i, c ∉ [' ', '(', ')', '\x22'] := by
  intro c hc
  rw [Decimal.write_eq, List.mem_append] at hc
  rcases hc with hc | hc
  · obtain rfl : c = '-' := by
      split at hc <;> simp_all
    decide
  · have hdigit : c.isDigit := Nat.isDigit_of_mem_toDigits (by decide) (by decide) hc
    exact not_mem_of_not_mem_delimiters (not_mem_delimiters_of_isDigit hdigit)

mutual

/-- The rendering of a plain expression is a layout of itself, wherever it stands. -/
lemma respaced_chars (e : Expr) (h : e.Plain) {tail source : List Char}
    (htail : Respaced false tail source) :
    Respaced false (e.chars ++ tail) (e.chars ++ source) := by
  cases e with
  | atom name => exact htail.plain_append (h.names name (mem_nodes_self _)).plain
  | number n => exact htail.plain_append (plain_write n.toInt)
  | text s => exact htail.literal_append (h.texts s (mem_nodes_self _)).1
  | list items =>
    have hclose := htail.paren_cons (Or.inr rfl)
    have hitems := respaced_itemChars items (fun x hx => h.of_mem_items hx) hclose
    simpa [chars] using hitems.paren_cons (Or.inl rfl)
  | quoted items =>
    have hclose := htail.paren_cons (Or.inr rfl)
    have hitems := respaced_itemChars items (fun x hx => h.of_mem_items hx) hclose
    have hquote : '\x27' ∉ [' ', '(', ')', '\x22'] := by decide
    simpa [chars] using Respaced.outside hquote (hitems.paren_cons (Or.inl rfl))

/-- So is the rendering of a sequence. -/
lemma respaced_itemChars (es : List Expr) (h : ∀ e ∈ es, e.Plain) {tail source : List Char}
    (htail : Respaced false tail source) :
    Respaced false (itemChars es ++ tail) (itemChars es ++ source) := by
  match es with
  | [] => exact htail
  | [e] => exact respaced_chars e (h e List.mem_cons_self) htail
  | e :: e' :: es =>
    have hes := respaced_itemChars (e' :: es) (fun x hx => h x (List.mem_cons_of_mem e hx)) htail
    have he := respaced_chars e (h e List.mem_cons_self) hes.space_cons
    rw [itemChars]
    · simpa using he
    · simp

end

/-- The renderings of plain expressions are a layout of themselves. -/
lemma isLayoutOf_self {es : List Expr} (h : ∀ e ∈ es, e.Plain) :
    IsLayoutOf (" ".intercalate (es.map render)) (" ".intercalate (es.map render)) := by
  refine ⟨[], itemChars es, toList_intercalate_render es, by simp, ?_⟩
  rw [toList_intercalate_render]
  have hself := respaced_itemChars es h (.nil (w := []) (by simp))
  rwa [List.append_nil] at hself

end Expr

/-- A well-formed expression is read back from its rendering. -/
theorem parseExpr_render {e : Expr} (h : e.WellFormed) : parseExpr e.render = .ok e := by
  have hes : ∀ x ∈ [e], x.WellFormed := by simpa using h
  have hlayout : IsLayoutOf e.render (" ".intercalate ([e].map Expr.render)) := by
    simpa using Expr.isLayoutOf_self fun x hx => (hes x hx).plain
  exact parseExpr_of_parseScript (Expr.parseScript_layout hes (List.isChain_singleton e) hlayout)

/-- Well-formed expressions that do not run into each other are read back from every
layout of their renderings. -/
theorem parseScript_of_isLayoutOf {es : List Expr} {source : String}
    (hes : ∀ e ∈ es, e.WellFormed) (hapart : Expr.Apart es)
    (h : IsLayoutOf source (" ".intercalate (es.map Expr.render))) :
    parseScript source = .ok es ∧ ∀ e ∈ es.head?, parseExpr source = .ok e := by
  have hscript := Expr.parseScript_layout hes hapart h
  refine ⟨hscript, fun e he => ?_⟩
  cases es with
  | nil => simp at he
  | cons x xs =>
    obtain rfl : x = e := by simpa using he
    exact parseExpr_of_parseScript hscript

/-- The least number stands behind the name `-`, a text holds a space and a parenthesis,
and blanks stand wherever they may. -/
theorem parseScript_of_isLayoutOf_least :
    IsLayoutOf "\n-\t -9223372036854775808\n' ( \"a (\"\t( ) )\n"
        (" ".intercalate (List.map Expr.render
          [.atom "-", .number Int64.minValue, .quoted [.text "a (", .list []]])) ∧
      parseScript "\n-\t -9223372036854775808\n' ( \"a (\"\t( ) )\n" =
        .ok [.atom "-", .number Int64.minValue, .quoted [.text "a (", .list []]] ∧
      parseExpr "\n-\t -9223372036854775808\n' ( \"a (\"\t( ) )\n" = .ok (.atom "-") := by
  have hend := Respaced.nil (w := ['\n']) (by simp [blanks])
  have hclose := Respaced.paren (c := ')') (v := [' ']) (w := []) (by simp) (by simp [blanks])
    (by simp) hend
  have hlist := Respaced.paren (c := '(') (v := []) (w := [' ']) (by simp) (by simp)
    (by simp [blanks]) (hclose.paren_cons (Or.inr rfl))
  have htext := Respaced.literal_append (s := ['a', ' ', '(']) (by simp)
    (Respaced.space (w := ['\t']) (by simp) (by simp [blanks]) hlist)
  have hopen := Respaced.paren (c := '(') (v := [' ']) (w := [' ']) (by simp)
    (by simp [blanks]) (by simp [blanks]) htext
  have hquoted := Respaced.outside (c := '\x27') (by simp) hopen
  have hnumber := Respaced.plain_append
    (by simp : ∀ c ∈ "-9223372036854775808".toList, c ∉ [' ', '(', ')', '\x22'])
    (Respaced.space (w := ['\n']) (by simp) (by simp [blanks]) hquoted)
  have hminus := Respaced.outside (c := '-') (by simp)
    (Respaced.space (w := ['\t', ' ']) (by simp) (by simp [blanks]) hnumber)
  have hlayout : IsLayoutOf "\n-\t -9223372036854775808\n' ( \"a (\"\t( ) )\n"
      (" ".intercalate (List.map Expr.render
        [.atom "-", .number Int64.minValue, .quoted [.text "a (", .list []]])) := by
    refine ⟨['\n'], _, ?_, by simp [blanks], by rw [Expr.toList_intercalate_render]; exact hminus⟩
    decide +kernel
  have hes : ∀ e ∈ [Expr.atom "-", .number Int64.minValue, .quoted [.text "a (", .list []]],
      e.WellFormed := by
    intro e he
    simp only [List.mem_cons, List.not_mem_nil, or_false] at he
    rcases he with rfl | rfl | rfl
    all_goals
      refine ⟨?_, ?_, ?_, by decide⟩ <;>
        simp [Expr.nodes, Expr.nodesAll, Expr.IsName, Expr.items, Expr.Apart]
  obtain ⟨hscript, hexpr⟩ := parseScript_of_isLayoutOf hes (by simp [Expr.Apart]) hlayout
  exact ⟨hlayout, hscript, hexpr (.atom "-") rfl⟩

end TinyLisp
