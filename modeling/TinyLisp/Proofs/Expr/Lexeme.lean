import TinyLisp.Proofs.Expr.Pending
import TinyLisp.Proofs.Text.Decimal
import TinyLisp.Proofs.Token.Spelling

/-!
# Parsing keeps the tokens

An expression is flattened, from left to right, into *lexemes*: its names, its signed
numbers, its texts, its parentheses and its quotation marks (`Expr.flatten`).  Tokens
are turned into lexemes as well (`Token.lexemes`), where a minus sign and a number
behind it are one lexeme, and a run of quotation marks is made one (`Lexeme.collapse`).

Parsing loses, duplicates and reorders nothing: the expressions of a script have the
lexemes of its tokens.  The invariant that carries the proof is about a parser in the
middle of its work: the lexemes of what is open (`opened`), followed by those of the
tokens still to come, stay the same at every step.
-/

namespace TinyLisp

/-- A piece of an expression or of a token sequence. -/
inductive Lexeme
  | name (s : String)
  | number (i : ℤ)
  | text (s : String)
  | opening
  | closing
  | mark
  /-- A token that is part of no expression. -/
  | stray (t : Token)
  deriving DecidableEq

namespace Lexeme

/-- Makes one quotation mark of a run of them. -/
def collapse : List Lexeme → List Lexeme
  | [] => []
  | x :: xs => if x = .mark ∧ xs.head? = some .mark then collapse xs else x :: collapse xs

end Lexeme

/-! ### The lexemes of expressions -/

namespace Expr

mutual

/-- The lexemes of an expression. -/
def flatten : Expr → List Lexeme
  | .atom name => [.name name]
  | .number n => [.number n.toInt]
  | .text s => [.text s]
  | .list items => .opening :: flattenAll items ++ [.closing]
  | .quoted items => .mark :: .opening :: flattenAll items ++ [.closing]

/-- The lexemes of a sequence of expressions. -/
def flattenAll : List Expr → List Lexeme
  | [] => []
  | e :: es => flatten e ++ flattenAll es

end

end Expr

/-! ### The lexemes of tokens -/

namespace Token

/-- The text of a string literal without its opening quote and, unless it is cut
short, without its closing quote. -/
def inner (t : Token) : String :=
  String.ofList (if t.truncated then t.text.toList.tail else t.text.toList.tail.dropLast)

/-- The lexeme of a single token. -/
def lexeme (t : Token) : Lexeme :=
  match t.kind with
  | .atom => .name t.text
  | .minus => .name "-"
  | .number => .number (Decimal.value t.text.toList)
  | .string => .text t.inner
  | .lparen => .opening
  | .rparen => .closing
  | .quote => .mark
  | .comment | .eof | .error => .stray t

/-- The lexemes of tokens: a minus sign and a number directly behind it are one. -/
def lexemes : List Token → List Lexeme
  | [] => []
  | [t] => [t.lexeme]
  | t :: u :: ts =>
    if t.kind = .minus ∧ u.kind = .number then
      .number (-Decimal.value u.text.toList) :: lexemes ts
    else t.lexeme :: lexemes (u :: ts)

end Token

namespace Lexeme

/-! ### Collapsing -/

/-- A list that goes on with other things than a quotation mark is collapsed behind. -/
lemma collapse_cons {x : Lexeme} (hx : x ≠ .mark) (xs : List Lexeme) :
    collapse (x :: xs) = x :: collapse xs := by
  simp [collapse, hx]

/-- Collapsing does not change what comes first. -/
lemma head?_collapse (xs : List Lexeme) : (collapse xs).head? = xs.head? := by
  induction xs with
  | nil => rfl
  | cons x xs ih =>
    unfold collapse
    split
    · next h => rw [ih, h.2, h.1]; rfl
    · rfl

/-- Only the collapsed form of a list matters for what stands before it. -/
lemma collapse_append {ys zs : List Lexeme} (xs : List Lexeme) (h : collapse ys = collapse zs) :
    collapse (xs ++ ys) = collapse (xs ++ zs) := by
  have hhead : ys.head? = zs.head? := by rw [← head?_collapse ys, h, head?_collapse]
  induction xs with
  | nil => exact h
  | cons x xs ih =>
    have hhead' : (xs ++ ys).head? = (xs ++ zs).head? := by
      rw [List.head?_append, List.head?_append, hhead]
    rw [List.cons_append, List.cons_append, collapse, collapse, ih, hhead']

/-- Of two quotation marks in a row one is enough. -/
lemma collapse_mark_mark (xs : List Lexeme) :
    collapse (.mark :: .mark :: xs) = collapse (.mark :: xs) := by
  rw [collapse, if_pos ⟨rfl, rfl⟩]

mutual

/-- The lexemes of an expression have no run of quotation marks. -/
lemma collapse_flatten_append (e : Expr) (xs : List Lexeme) :
    collapse (e.flatten ++ xs) = e.flatten ++ collapse xs := by
  cases e with
  | atom name => exact collapse_cons (by simp) xs
  | number n => exact collapse_cons (by simp) xs
  | text s => exact collapse_cons (by simp) xs
  | list items =>
    simp only [Expr.flatten, List.cons_append, List.append_assoc]
    rw [collapse_cons (by simp), collapse_flattenAll_append, collapse_cons (by simp)]
    rfl
  | quoted items =>
    simp only [Expr.flatten, List.cons_append, List.append_assoc]
    rw [collapse, if_neg (by simp), collapse_cons (by simp), collapse_flattenAll_append,
      collapse_cons (by simp)]
    rfl

lemma collapse_flattenAll_append (es : List Expr) (xs : List Lexeme) :
    collapse (Expr.flattenAll es ++ xs) = Expr.flattenAll es ++ collapse xs := by
  cases es with
  | nil => rfl
  | cons e es =>
    simp only [Expr.flattenAll, List.append_assoc]
    rw [collapse_flatten_append e, collapse_flattenAll_append es]

end

end Lexeme

namespace Token

/-! ### Lexemes of tokens that are spelled -/

/-- A token that does not go together with the next one is a lexeme of its own. -/
lemma lexemes_cons {t : Token} {ts : List Token}
    (h : t.kind = .minus → (Pushdown.next ts).kind ≠ .number) :
    lexemes (t :: ts) = t.lexeme :: lexemes ts := by
  cases ts with
  | nil => rfl
  | cons u ts =>
    rw [lexemes, if_neg]
    exact fun hboth => h hboth.1 hboth.2

/-- A minus sign is `-`, and a string literal denotes what stands between its quotes. -/
structure IsRegular (t : Token) : Prop where
  text_minus : t.kind = .minus → t.text = "-"
  content_string : t.kind = .string → t.content = t.inner

/-- Tokens that are spelled are regular. -/
lemma Spelling.isRegular {t : Token} {r rest : List Char} (h : Spelling t r rest) :
    t.IsRegular := by
  constructor
  · cases h <;> simp
  · cases h <;> simp [content, inner]

end Token

namespace Pushdown

/-! ### The invariant -/

/-- The lexemes of what is open: each list with its items so far, each quotation mark. -/
def opened : List Frame → List Lexeme
  | [] => []
  | .list items :: outer => opened outer ++ .opening :: Expr.flattenAll items.reverse
  | .quote :: outer => opened outer ++ [.mark]

/-- The lexemes read when a step has been made. -/
def Turn.read : Turn → List Lexeme
  | .stop (.ok e) _ => e.flatten
  | .stop (.error _) _ => []
  | .go frames _ => opened frames

lemma flattenAll_append (es fs : List Expr) :
    Expr.flattenAll (es ++ fs) = Expr.flattenAll es ++ Expr.flattenAll fs := by
  induction es with
  | nil => rfl
  | cons e es ih => simp [Expr.flattenAll, ih]

/-- Quoting an expression puts a quotation mark in front, unless there is one. -/
lemma collapse_flatten_quote {e q : Expr} (h : e.quote? = some q) (xs : List Lexeme) :
    Lexeme.collapse (.mark :: e.flatten ++ xs) = Lexeme.collapse (q.flatten ++ xs) := by
  cases e with
  | list items =>
    obtain rfl := Option.some.inj h
    rfl
  | quoted items =>
    obtain rfl := Option.some.inj h
    exact Lexeme.collapse_mark_mark _
  | _ => simp [Expr.quote?] at h

/-- Handing over an expression adds its lexemes to what has been read. -/
lemma collapse_read_deliver {e : Expr} {rest : List Token} {frames : List Frame}
    (hfine : (deliver e rest frames).isFine = true) (xs : List Lexeme) :
    Lexeme.collapse (opened frames ++ (e.flatten ++ xs)) =
      Lexeme.collapse ((deliver e rest frames).read ++ xs) := by
  induction frames generalizing e with
  | nil => rfl
  | cons frame outer ih =>
    cases frame with
    | list items =>
      simp [deliver, Turn.read, opened, flattenAll_append, Expr.flattenAll]
    | quote =>
      unfold deliver at hfine ⊢
      cases hquote : e.quote? with
      | none => simp [hquote, Turn.isFine] at hfine
      | some q =>
        rw [hquote] at hfine
        rw [← ih hfine, opened, List.append_assoc]
        exact Lexeme.collapse_append _ (collapse_flatten_quote hquote xs)

/-- The tokens of a leaf have its lexeme. -/
lemma lexemes_leaf {used rest : List Token} {e : Expr} (h : Leaf used e rest)
    (hregular : ∀ t ∈ used, t.IsRegular) :
    Token.lexemes (used ++ rest) = e.flatten ++ Token.lexemes rest := by
  cases h with
  | @atom t _ ht =>
    rw [List.singleton_append, Token.lexemes_cons (by simp [ht])]
    simp [Token.lexeme, ht, Expr.flatten]
  | @number t n _ ht hn =>
    obtain ⟨-, hvalue⟩ := (Decimal.read?_eq_some_iff _ _ _).mp hn
    rw [List.singleton_append, Token.lexemes_cons (by simp [ht])]
    simp [Token.lexeme, ht, Expr.flatten, hvalue, Decimal.signed]
  | @negative m t n _ hm ht hn =>
    obtain ⟨-, hvalue⟩ := (Decimal.read?_eq_some_iff _ _ _).mp hn
    rw [List.cons_append, List.singleton_append, Token.lexemes, if_pos ⟨hm, ht⟩]
    simp [Expr.flatten, hvalue, Decimal.signed]
  | @minus m _ hm hrest =>
    rw [List.singleton_append, Token.lexemes_cons (fun _ => hrest)]
    simp [Token.lexeme, hm, Expr.flatten, (hregular m List.mem_cons_self).text_minus hm]
  | @string t _ ht =>
    rw [List.singleton_append, Token.lexemes_cons (by simp [ht])]
    simp [Token.lexeme, ht, Expr.flatten, (hregular t List.mem_cons_self).content_string ht]

/-- A step keeps the lexemes read so far together with those still to come. -/
lemma collapse_read_moves {frames : List Frame} {ts : List Token} {turn : Turn}
    (h : Moves frames ts turn) (hfine : turn.isFine = true) (hregular : ∀ t ∈ ts, t.IsRegular) :
    Lexeme.collapse (opened frames ++ Token.lexemes ts) =
      Lexeme.collapse (turn.read ++ Token.lexemes turn.rest) := by
  cases h with
  | leaf hleaf =>
    rw [lexemes_leaf hleaf (fun t ht => hregular t (List.mem_append_left _ ht)), rest_deliver]
    exact collapse_read_deliver hfine _
  | lparen ht =>
    rw [Token.lexemes_cons (by simp [ht])]
    simp [Token.lexeme, ht, Turn.read, opened, Expr.flattenAll]
  | quote ht =>
    rw [Token.lexemes_cons (by simp [ht])]
    simp [Token.lexeme, ht, Turn.read, opened]
  | @rparen items outer t rest ht =>
    rw [Token.lexemes_cons (by simp [ht]), rest_deliver, ← collapse_read_deliver hfine]
    simp [Token.lexeme, ht, opened, Expr.flatten]

/-- So does a run that reads an expression. -/
lemma collapse_expression {frames : List Frame} {ts rest : List Token} {e : Expr}
    (h : expression frames ts = (.ok e, rest)) (hregular : ∀ t ∈ ts, t.IsRegular) :
    Lexeme.collapse (opened frames ++ Token.lexemes ts) =
      e.flatten ++ Lexeme.collapse (Token.lexemes rest) := by
  revert hregular
  refine expression_induction (motive := fun frames ts e rest => (∀ t ∈ ts, t.IsRegular) →
    Lexeme.collapse (opened frames ++ Token.lexemes ts) =
      e.flatten ++ Lexeme.collapse (Token.lexemes rest)) ?_ ?_ h
  · intro frames ts e rest hmoves hregular
    rw [collapse_read_moves hmoves rfl hregular]
    exact Lexeme.collapse_flatten_append _ _
  · intro frames frames' ts ts' e rest hmoves ih hregular
    obtain ⟨t, us, rfl⟩ := hmoves.exists_used
    rw [collapse_read_moves hmoves rfl hregular]
    exact ih fun u hu => hregular u (List.mem_append_right _ hu)

/-- The expressions of a script have the lexemes of its tokens. -/
lemma flattenAll_script {ts : List Token} {es : List Expr} (h : (script ts).1 = .ok es)
    (hregular : ∀ t ∈ ts, t.IsRegular) :
    Expr.flattenAll es = Lexeme.collapse (Token.lexemes ts) := by
  revert hregular
  refine script_induction (motive := fun ts es => (∀ t ∈ ts, t.IsRegular) →
    Expr.flattenAll es = Lexeme.collapse (Token.lexemes ts)) ?_ ?_ h
  · intro _
    rfl
  · intro ts rest e es hexpr ih hregular
    obtain ⟨t, us, hts⟩ := exists_used_expression hexpr
    have hrest : ∀ u ∈ rest, u.IsRegular := by
      intro u hu
      exact hregular u (hts ▸ List.mem_append_right _ hu)
    have hlexemes := collapse_expression hexpr hregular
    rw [opened, List.nil_append] at hlexemes
    rw [hlexemes, Expr.flattenAll, ih hrest]

end Pushdown

/-- Parsing a script loses, duplicates and reorders nothing: its expressions, from left
to right, have the lexemes of its tokens. -/
theorem flattenAll_parseScript {s : String} {es : List Expr} (h : parseScript s = .ok es) :
    Expr.flattenAll es =
      Lexeme.collapse (Token.lexemes ((tokenize s).filter fun t => !t.isEnd)) := by
  have htokens : (tokenize s).filter (fun t => !t.isEnd) = (Source.ofString s).tokens.1 := by
    rw [tokenize, List.filter_append, List.filter_eq_self.mpr]
    · exact List.append_nil _
    · intro t ht
      simp [Source.isEnd_of_mem_tokens ht]
  have hregular := (Token.lexes_tokens_ofList s.toList).forall_mem fun t r rest ht => ht.isRegular
  rw [parseScript_eq] at h
  rw [htokens]
  exact Pushdown.flattenAll_script h hregular

/-- A script with a run of quotation marks, minus signs of both uses, and a string
literal that is cut short behind an escaped quote. -/
theorem flattenAll_parseScript_quotes :
    parseScript "''(- -5 -) x'y \"a\\\"" =
        .ok [.quoted [.atom "-", .number (-5), .atom "-"], .atom "x'y", .text "a\""] ∧
      Expr.flattenAll
          [.quoted [.atom "-", .number (-5), .atom "-"], .atom "x'y", .text "a\""] =
        Lexeme.collapse
          (Token.lexemes ((tokenize "''(- -5 -) x'y \"a\\\"").filter fun t => !t.isEnd)) :=
  have h : parseScript "''(- -5 -) x'y \"a\\\"" =
      .ok [.quoted [.atom "-", .number (-5), .atom "-"], .atom "x'y", .text "a\""] := by
    decide +kernel
  ⟨h, flattenAll_parseScript h⟩

end TinyLisp
