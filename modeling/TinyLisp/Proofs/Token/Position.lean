import TinyLisp.Proofs.Source.Advance
import TinyLisp.Proofs.Token.Spelling

/-!
# Where tokens end

`Token.Spellings ts read rest` says that the tokens `ts` are spelled by the characters
`read` where the characters `rest` follow.  There may be blanks before each token, but none
behind the last one, so the last token ends with the last character of `read`.

A source that holds its lines is left behind the last character of the token that was read
(`Source.HoldsLines.token_cases`): looking beyond a name or a number does not show, because
neither ends with a newline.  The same is true of any number of tokens that are read one
after the other (`Source.Takes.exists_spellings`).
-/

namespace TinyLisp

namespace Token

/-! ### Spellings one after the other -/

/-- The characters in the middle spell the tokens, with blanks before each of them, where
the last characters follow. -/
inductive Spellings : List Token → List Char → List Char → Prop
  | nil {rest : List Char} : Spellings [] [] rest
  | concat {ts : List Token} {t : Token} {read w r rest : List Char}
      (h : Spellings ts read (w ++ r ++ rest)) (hw : ∀ c ∈ w, c ∈ blanks)
      (ht : Spelling t r rest) : Spellings (ts ++ [t]) (read ++ (w ++ r)) rest

/-- A token is spelled the same if the text is cut short behind it. -/
lemma Spelling.of_append {t : Token} {r rest more : List Char}
    (h : Spelling t r (rest ++ more)) : Spelling t r rest := by
  have hhead : ∀ d ∈ rest.head?, d ∈ (rest ++ more).head? := by
    intro d hd
    rw [List.head?_append, Option.mem_def.mp hd]
    rfl
  generalize htail : rest ++ more = tail at h
  rw [htail] at hhead
  cases h with
  | lparen => exact .lparen
  | rparen => exact .rparen
  | quote => exact .quote
  | minus => exact .minus
  | number hc hcs hrest => exact .number hc hcs fun d hd => hrest d (hhead d hd)
  | atom hc hcs hrest => exact .atom hc hcs fun d hd => hrest d (hhead d hd)
  | comment hcs => exact .comment hcs
  | string hb => exact .string hb
  | lastComment hcs =>
    rw [(List.append_eq_nil_iff.mp htail).1]
    exact .lastComment hcs
  | openString hb =>
    rw [(List.append_eq_nil_iff.mp htail).1]
    exact .openString hb
  | brokenString hb =>
    rw [(List.append_eq_nil_iff.mp htail).1]
    exact .brokenString hb

namespace Spellings

variable {ts us : List Token} {read rest : List Char}

lemma of_append {more : List Char} (h : Spellings ts read (rest ++ more)) :
    Spellings ts read rest := by
  generalize htail : rest ++ more = tail at h
  induction h generalizing rest with
  | nil => exact .nil
  | @concat ts t read w r tail h hw ht ih =>
    subst htail
    exact .concat (ih (by rw [List.append_assoc])) hw ht.of_append

/-- The tokens that are spelled come before those of what follows. -/
lemma lexes_append (h : Spellings ts read rest) (hrest : Lexes rest us) :
    Lexes (read ++ rest) (ts ++ us) := by
  induction h generalizing us with
  | nil => exact hrest
  | concat _ hw ht ih =>
    have hlexes := ih (.cons hw ht hrest)
    simpa using hlexes

/-- By themselves, the characters are read as these tokens. -/
lemma lexes (h : Spellings ts read rest) : Lexes read ts := by
  have halone : Spellings ts read [] := h.of_append
  have hlexes : Lexes (read ++ []) (ts ++ []) := halone.lexes_append (.nil (by simp))
  simpa using hlexes

end Spellings

/-- A number or a name is not spelled with a newline. -/
lemma Spelling.newline_not_mem {t : Token} {r rest : List Char} (h : Spelling t r rest)
    (hkind : t.kind = .number ∨ t.kind = .atom) : '\n' ∉ r := by
  cases h with
  | @number c cs _ hc hcs _ =>
    intro hmem
    rcases List.mem_cons.mp hmem with rfl | hmem
    · simp [Char.isDigit] at hc
    · simpa [Char.isDigit] using hcs '\n' hmem
  | atom _ hcs _ => exact fun hmem => hcs '\n' hmem (by decide)
  | _ => simp at hkind

end Token

namespace Source

open Token

namespace HoldsLines

variable {s : Source} {cs : List Char}

/-- Looking at a character leaves all characters where they are. -/
lemma free_settle (h : s.HoldsLines cs) : s.settle.free = ofList cs := by
  rw [← settle_free, h.free_eq, settle_ofList]

/-- The attempts made are as many as the characters that are missing. -/
lemma advance_eq_of_length {read rest : List Char} (h : s.HoldsLines (read ++ rest)) {k : ℕ}
    (hk : (s.advance k).pulls.length = rest.length) : s.advance k = s.advance read.length := by
  rw [advance_eq, hk, h.length_pulls, List.length_append, Nat.add_sub_cancel]

/-- A token leaves the source behind the characters that it has taken, provided that it ends
with no newline where it looks further. -/
lemma token_snd {read rest : List Char} (h : s.HoldsLines (read ++ rest))
    (hfree : s.token.2.free = ofList rest)
    (hlast : s.token.1.kind = .number ∨ s.token.1.kind = .atom ∨ s.token.1 = endOfInput →
      rest = [] ∨ ∃ c, read.getLast? = some c ∧ c ≠ '\n') :
    s.token.2 = s.advance read.length := by
  have hlength : s.token.2.pulls.length = rest.length := by
    simpa [free, ofList] using congrArg (fun r : Source => r.pulls.length) hfree
  obtain ⟨k, hk | ⟨hkind, hk⟩⟩ := exists_token_snd s
  · rw [hk] at hlength ⊢
    exact h.advance_eq_of_length hlength
  · have hsettle : (s.advance k).settle.pulls.length = (s.advance k).pulls.length := by
      rw [(h.advance k).length_pulls]
      simpa [free, ofList] using
        congrArg (fun r : Source => r.pulls.length) (h.advance k).free_settle
    rw [hk, hsettle] at hlength
    rw [hk, h.advance_eq_of_length hlength, h.settle_advance (hlast hkind)]

/-- A token that is spelled at the front is read, up to its last character. -/
lemma token_of_spelling {w r rest : List Char} {t : Token} (h : s.HoldsLines (w ++ r ++ rest))
    (hw : ∀ c ∈ w, c ∈ blanks) (ht : Spelling t r rest) :
    s.token = (t, s.advance (w ++ r).length) := by
  have hfree := token_free s
  rw [h.free_eq, ht.token hw] at hfree
  obtain ⟨hfst, hsnd⟩ := Prod.mk.inj hfree
  refine Prod.ext hfst.symm (h.token_snd hsnd.symm fun hkind => Or.inr ?_)
  rw [← hfst, ← or_assoc] at hkind
  have hnewline : '\n' ∉ r := by
    apply ht.newline_not_mem
    apply hkind.resolve_right
    rintro rfl
    exact absurd ht.isEnd (by decide)
  obtain ⟨c, cs, hr, -⟩ := ht.tokenFrom
  have hne : r ≠ [] := by simp [hr]
  refine ⟨r.getLast hne, ?_, fun heq => hnewline (heq ▸ List.getLast_mem hne)⟩
  rw [List.getLast?_append, List.getLast?_eq_some_getLast hne]
  rfl

/-- Where there are blanks only, all of them are read. -/
lemma token_of_blanks (h : s.HoldsLines cs) (hcs : ∀ c ∈ cs, c ∈ blanks) :
    s.token = (endOfInput, s.advance cs.length) := by
  have hfree := token_free s
  rw [h.free_eq, Token.token_of_blanks hcs] at hfree
  obtain ⟨hfst, hsnd⟩ := Prod.mk.inj hfree
  rw [← List.append_nil cs] at h
  exact Prod.ext hfst.symm (h.token_snd hsnd.symm fun _ => Or.inl rfl)

/-- What reading a token does: it is spelled behind some blanks, or there are blanks only. -/
theorem token_cases (h : s.HoldsLines cs) :
    (∃ w r rest, cs = w ++ r ++ rest ∧ (∀ c ∈ w, c ∈ blanks) ∧ Spelling s.token.1 r rest ∧
      s.token.2 = s.advance (w ++ r).length) ∨
    (∀ c ∈ cs, c ∈ blanks) ∧ s.token.1 = endOfInput ∧ s.token.2 = s.advance cs.length := by
  obtain ⟨ts, hts⟩ := exists_lexes cs
  cases hts with
  | nil hw =>
    have htoken := h.token_of_blanks hw
    exact Or.inr ⟨hw, by rw [htoken], by rw [htoken]⟩
  | @cons w r rest t _ hw ht _ =>
    have htoken := h.token_of_spelling hw ht
    exact Or.inl ⟨w, r, rest, rfl, hw, by rwa [htoken], by rw [htoken]⟩

end HoldsLines

/-! ### Tokens one after the other -/

/-- The tokens are read off the first source, one after the other, and the second is left. -/
inductive Takes (s : Source) : List Token → Source → Prop
  | nil : Takes s [] s
  | concat {ts : List Token} {s' : Source} (h : Takes s ts s')
      (hend : s'.token.1.isEnd = false) : Takes s (ts ++ [s'.token.1]) s'.token.2

namespace Takes

variable {s s' : Source} {ts : List Token}

/-- The tokens read come before those still to be read. -/
lemma tokens_eq (h : s.Takes ts s') : s.tokens.1 = ts ++ s'.tokens.1 := by
  induction h with
  | nil => rfl
  | concat _ hend ih => rw [ih, tokens_of_not_isEnd hend, List.append_assoc, List.singleton_append]

/-- The tokens are spelled at the front of the source, and it is left behind the last
character of the last token. -/
theorem exists_spellings (h : s.Takes ts s') {cs : List Char} (hs : s.HoldsLines cs) :
    ∃ read rest, cs = read ++ rest ∧ Spellings ts read rest ∧ s' = s.advance read.length := by
  induction h with
  | nil => exact ⟨[], cs, rfl, .nil, by simp [advance, Pull.total]⟩
  | @concat ts s' _ hend ih =>
    obtain ⟨read, rest, rfl, hspellings, rfl⟩ := ih
    have hrest := hs.advance read.length
    rw [List.drop_left] at hrest
    rcases hrest.token_cases with ⟨w, r, rest, rfl, hw, ht, hsnd⟩ | ⟨-, hfst, -⟩
    · refine ⟨read ++ (w ++ r), rest, by simp, .concat hspellings hw ht, ?_⟩
      rw [hsnd, advance_advance, ← List.length_append]
    · rw [hfst] at hend
      exact absurd hend (by decide)

end Takes

end Source

end TinyLisp
