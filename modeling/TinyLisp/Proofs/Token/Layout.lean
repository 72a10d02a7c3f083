import TinyLisp.Proofs.Token.Spelling

/-!
# Other layouts of a text

A text keeps its meaning if its separating spaces are replaced by other blanks, and if
blanks are added around parentheses and at both ends.  `IsLayoutOf` says that one text
is obtained from another in this way.  Nothing may change between double quotes, and so
the relation behind it, `Respaced`, keeps track of whether it is inside a string literal.

A piece of the original text yields the same tokens in every layout if it is followed by
something that ends a name (`Yields`).  Longer pieces are put together from shorter ones.
-/

namespace TinyLisp

/-- The characters `source` are the characters `cs` in another layout.  The flag says
whether the first of them stands inside a string literal. -/
inductive Respaced : Bool → List Char → List Char → Prop
  /-- At the end, blanks may follow. -/
  | nil {w : List Char} (hw : ∀ c ∈ w, c ∈ blanks) : Respaced false [] w
  /-- Any blanks may stand in place of a space, but there has to be one. -/
  | space {w cs source : List Char} (hne : w ≠ []) (hw : ∀ c ∈ w, c ∈ blanks)
      (h : Respaced false cs source) : Respaced false (' ' :: cs) (w ++ source)
  /-- Blanks may stand before and after a parenthesis. -/
  | paren {c : Char} {v w cs source : List Char} (hc : c = '(' ∨ c = ')')
      (hv : ∀ c ∈ v, c ∈ blanks) (hw : ∀ c ∈ w, c ∈ blanks) (h : Respaced false cs source) :
      Respaced false (c :: cs) (v ++ [c] ++ w ++ source)
  /-- A double quote starts or ends a string literal. -/
  | doubleQuote {inside : Bool} {cs source : List Char} (h : Respaced (!inside) cs source) :
      Respaced inside ('\x22' :: cs) ('\x22' :: source)
  /-- A string literal stays as it is. -/
  | inside {c : Char} {cs source : List Char} (hc : c ≠ '\x22') (h : Respaced true cs source) :
      Respaced true (c :: cs) (c :: source)
  /-- So does every other character. -/
  | outside {c : Char} {cs source : List Char} (hc : c ∉ [' ', '(', ')', '\x22'])
      (h : Respaced false cs source) : Respaced false (c :: cs) (c :: source)

/-- The source is the text in another layout, perhaps with blanks in front. -/
def IsLayoutOf (source text : String) : Prop :=
  ∃ v cs, source.toList = v ++ cs ∧ (∀ c ∈ v, c ∈ blanks) ∧ Respaced false text.toList cs

namespace Respaced

/-! ### Reading a layout from left to right -/

/-- Characters that are neither spaces nor parentheses nor quotes stay as they are. -/
lemma of_plain {cs tail source : List Char} (hcs : ∀ c ∈ cs, c ∉ [' ', '(', ')', '\x22'])
    (h : Respaced false (cs ++ tail) source) :
    ∃ rest, source = cs ++ rest ∧ Respaced false tail rest := by
  induction cs generalizing source with
  | nil => exact ⟨source, rfl, h⟩
  | cons c cs ih =>
    have hc : c ∉ [' ', '(', ')', '\x22'] := hcs c List.mem_cons_self
    rw [List.cons_append] at h
    cases h with
    | space => simp at hc
    | paren hparen => rcases hparen with rfl | rfl <;> simp at hc
    | doubleQuote => simp at hc
    | outside _ h =>
      obtain ⟨rest, rfl, hrest⟩ := ih (fun d hd => hcs d (List.mem_cons_of_mem c hd)) h
      exact ⟨rest, rfl, hrest⟩

/-- Of a space, some blanks are left. -/
lemma of_space {c : Char} {cs source : List Char} (hc : c = ' ')
    (h : Respaced false (c :: cs) source) :
    ∃ w rest, source = w ++ rest ∧ w ≠ [] ∧ (∀ d ∈ w, d ∈ blanks) ∧ Respaced false cs rest := by
  cases h with
  | space hne hw h => exact ⟨_, _, rfl, hne, hw, h⟩
  | paren hparen => simp [hc] at hparen
  | doubleQuote => simp at hc
  | outside hplain => simp [hc] at hplain

/-- A parenthesis is found between blanks. -/
lemma of_paren {c : Char} {cs source : List Char} (hc : c = '(' ∨ c = ')')
    (h : Respaced false (c :: cs) source) :
    ∃ v w rest, source = v ++ [c] ++ w ++ rest ∧ (∀ d ∈ v, d ∈ blanks) ∧
      (∀ d ∈ w, d ∈ blanks) ∧ Respaced false cs rest := by
  cases h with
  | space => simp at hc
  | paren _ hv hw h => exact ⟨_, _, _, rfl, hv, hw, h⟩
  | doubleQuote => simp at hc
  | outside hplain => rcases hc with rfl | rfl <;> simp at hplain

/-- A string literal is found as it is. -/
lemma of_literal {s tail source : List Char} (hs : '\x22' ∉ s)
    (h : Respaced true (s ++ '\x22' :: tail) source) :
    ∃ rest, source = s ++ '\x22' :: rest ∧ Respaced false tail rest := by
  induction s generalizing source with
  | nil =>
    cases h with
    | doubleQuote h => exact ⟨_, rfl, h⟩
    | inside hc => simp at hc
  | cons c s ih =>
    rw [List.cons_append] at h
    rw [List.mem_cons, not_or] at hs
    cases h with
    | doubleQuote => simp at hs
    | inside _ h =>
      obtain ⟨rest, rfl, hrest⟩ := ih hs.2 h
      exact ⟨rest, rfl, hrest⟩

/-- So is its double quote. -/
lemma of_doubleQuote {c : Char} {cs source : List Char} (hc : c = '\x22')
    (h : Respaced false (c :: cs) source) :
    ∃ rest, source = '\x22' :: rest ∧ Respaced true cs rest := by
  cases h with
  | space => simp at hc
  | paren hparen => simp [hc] at hparen
  | doubleQuote h => exact ⟨_, rfl, h⟩
  | outside hplain => simp [hc] at hplain

/-- What ends a name in a text ends it in every layout. -/
lemma head?_mem_delimiters {tail source : List Char} (h : Respaced false tail source)
    (htail : ∀ c ∈ tail.head?, c = ' ' ∨ c = ')') : ∀ c ∈ source.head?, c ∈ delimiters := by
  have hblank : ∀ {w rest : List Char}, w ≠ [] → (∀ c ∈ w, c ∈ blanks) →
      ∀ c ∈ (w ++ rest).head?, c ∈ delimiters := by
    intro w rest hne hw c hc
    obtain ⟨d, w, rfl⟩ := List.exists_cons_of_ne_nil hne
    obtain rfl : d = c := by simpa using hc
    exact Token.mem_delimiters_of_mem_blanks (hw d List.mem_cons_self)
  cases tail with
  | nil =>
    cases h with
    | nil hw => exact fun c hc => Token.mem_delimiters_of_mem_blanks (hw c (List.mem_of_head? hc))
  | cons c cs =>
    rcases htail c rfl with hc | hc
    · obtain ⟨w, rest, rfl, hne, hw, -⟩ := h.of_space hc
      exact hblank hne hw
    · obtain ⟨v, w, rest, rfl, hv, -, -⟩ := h.of_paren (Or.inr hc)
      cases v with
      | nil => simp [hc, delimiters]
      | cons d v =>
        rw [List.append_assoc, List.append_assoc]
        exact hblank (List.cons_ne_nil d v) hv

/-! ### Leaving a text as it is -/

/-- Characters other than spaces, parentheses and quotes can be put in front. -/
lemma plain_append {cs tail source : List Char} (hcs : ∀ c ∈ cs, c ∉ [' ', '(', ')', '\x22'])
    (h : Respaced false tail source) : Respaced false (cs ++ tail) (cs ++ source) := by
  induction cs with
  | nil => exact h
  | cons c cs ih =>
    exact .outside (hcs c List.mem_cons_self) (ih fun d hd => hcs d (List.mem_cons_of_mem c hd))

/-- So can a string literal. -/
lemma literal_append {s tail source : List Char} (hs : '\x22' ∉ s)
    (h : Respaced false tail source) :
    Respaced false ('\x22' :: s ++ ['\x22'] ++ tail) ('\x22' :: s ++ ['\x22'] ++ source) := by
  have hinside : Respaced true (s ++ '\x22' :: tail) (s ++ '\x22' :: source) := by
    induction s with
    | nil => exact .doubleQuote h
    | cons c s ih =>
      rw [List.mem_cons, not_or] at hs
      exact .inside (Ne.symm hs.1) (ih hs.2)
  rw [List.append_assoc, List.append_assoc]
  exact .doubleQuote hinside

/-- So can a single space. -/
lemma space_cons {tail source : List Char} (h : Respaced false tail source) :
    Respaced false (' ' :: tail) (' ' :: source) :=
  .space (w := [' ']) (by simp) (by simp [blanks]) h

/-- So can a parenthesis. -/
lemma paren_cons {c : Char} {tail source : List Char} (hc : c = '(' ∨ c = ')')
    (h : Respaced false tail source) : Respaced false (c :: tail) (c :: source) :=
  .paren (v := []) (w := []) hc (by simp) (by simp) h

end Respaced

namespace Token

/-! ### Pieces that yield the same tokens in every layout -/

/-- Blanks in front of a text do not matter. -/
lemma Lexes.blanks_append {w cs : List Char} {ts : List Token} (hw : ∀ c ∈ w, c ∈ blanks)
    (h : Lexes cs ts) : Lexes (w ++ cs) ts := by
  have hblanks : ∀ {v : List Char}, (∀ c ∈ v, c ∈ blanks) → ∀ c ∈ w ++ v, c ∈ blanks :=
    fun hv c hc => (List.mem_append.mp hc).elim (hw c) (hv c)
  cases h with
  | nil hv => exact .nil (hblanks hv)
  | cons hv ht hrest =>
    rw [← List.append_assoc, ← List.append_assoc]
    exact .cons (hblanks hv) ht hrest

/-- A token that is spelled at the front of a text comes first. -/
lemma Lexes.spelled {r rest : List Char} {t : Token} {ts : List Token} (ht : Spelling t r rest)
    (h : Lexes rest ts) : Lexes (r ++ rest) (t :: ts) :=
  .cons (by simp : ∀ c ∈ ([] : List Char), c ∈ blanks) ht h

/-- However the characters `cs` are laid out, they are read as the tokens `us` if
something follows that ends a name. -/
def Yields (cs : List Char) (us : List Token) : Prop :=
  ∀ tail source, (∀ c ∈ tail.head?, c = ' ' ∨ c = ')') → Respaced false (cs ++ tail) source →
    ∃ rest, Respaced false tail rest ∧ ∀ ts, Lexes rest ts → Lexes source (us ++ ts)

lemma yields_nil : Yields [] [] :=
  fun _ source _ h => ⟨source, h, fun _ hts => hts⟩

/-- A piece whose characters stay as they are yields the token that they spell. -/
lemma yields_of_plain {r : List Char} {t : Token} (hr : ∀ c ∈ r, c ∉ [' ', '(', ')', '\x22'])
    (ht : ∀ rest : List Char, (∀ c ∈ rest.head?, c ∈ delimiters) → Spelling t r rest) :
    Yields r [t] := by
  intro tail source htail h
  obtain ⟨rest, rfl, hrest⟩ := h.of_plain hr
  exact ⟨rest, hrest, fun ts hts => .spelled (ht rest (hrest.head?_mem_delimiters htail)) hts⟩

/-- A piece may have a token in front that needs no delimiter. -/
lemma Yields.cons {c : Char} {cs : List Char} {t : Token} {us : List Token}
    (hc : c ∉ [' ', '(', ')', '\x22']) (ht : ∀ rest, Spelling t [c] rest) (h : Yields cs us) :
    Yields (c :: cs) (t :: us) := by
  intro tail source htail hsource
  have hsource : Respaced false ([c] ++ (cs ++ tail)) source := hsource
  obtain ⟨middle, rfl, hmiddle⟩ := hsource.of_plain (by simpa using hc)
  obtain ⟨rest, hrest, hlexes⟩ := h tail middle htail hmiddle
  exact ⟨rest, hrest, fun ts hts => .spelled (ht middle) (hlexes ts hts)⟩

/-- Pieces are put together with a space between them. -/
lemma Yields.append {cs ds : List Char} {us vs : List Token} (hcs : Yields cs us)
    (hds : Yields ds vs) : Yields (cs ++ ' ' :: ds) (us ++ vs) := by
  intro tail source htail h
  rw [List.append_assoc] at h
  obtain ⟨middle, hmiddle, hlexes⟩ := hcs _ source (by simp) h
  obtain ⟨w, source', rfl, -, hw, hsource'⟩ := hmiddle.of_space rfl
  obtain ⟨rest, hrest, hlexes'⟩ := hds tail source' htail hsource'
  refine ⟨rest, hrest, fun ts hts => ?_⟩
  rw [List.append_assoc]
  exact hlexes _ ((hlexes' ts hts).blanks_append hw)

/-- A piece can be put in parentheses. -/
lemma Yields.parenthesized {cs : List Char} {us : List Token} (h : Yields cs us) :
    Yields ('(' :: cs ++ [')'])
      ({ kind := .lparen, text := "(" } :: us ++ [{ kind := .rparen, text := ")" }]) := by
  intro tail source htail hsource
  rw [List.append_assoc, List.cons_append] at hsource
  obtain ⟨v, w, source', rfl, hv, hw, hsource'⟩ := hsource.of_paren (Or.inl rfl)
  obtain ⟨middle, hmiddle, hlexes⟩ := h _ source' (by simp) hsource'
  obtain ⟨v', w', rest, rfl, hv', hw', hrest⟩ := hmiddle.of_paren (Or.inr rfl)
  refine ⟨rest, hrest, fun ts hts => ?_⟩
  have hclose : Lexes (v' ++ [')'] ++ w' ++ rest) ({ kind := .rparen, text := ")" } :: ts) := by
    rw [List.append_assoc]
    exact .cons hv' .rparen (hts.blanks_append hw')
  have hopen := Lexes.cons hv .lparen ((hlexes _ hclose).blanks_append hw)
  simpa [List.append_assoc] using hopen

/-- A string literal that holds no quote and no backslash yields its token. -/
lemma yields_literal {s : List Char} (hquote : '\x22' ∉ s) (hslash : '\\' ∉ s) :
    Yields ('\x22' :: s ++ ['\x22'])
      [{ kind := .string, text := String.ofList ('\x22' :: s ++ ['\x22']) }] := by
  have hencodes : Encodes s s := by
    induction s with
    | nil => exact .nil
    | cons c s ih =>
      rw [List.mem_cons, not_or] at hquote hslash
      exact .plain (Ne.symm hquote.1) (Ne.symm hslash.1) (ih hquote.2 hslash.2)
  intro tail source htail h
  rw [List.append_assoc, List.cons_append, List.singleton_append] at h
  obtain ⟨source', rfl, hsource'⟩ := h.of_doubleQuote rfl
  obtain ⟨rest, rfl, hrest⟩ := hsource'.of_literal hquote
  refine ⟨rest, hrest, fun ts hts => ?_⟩
  have hlexes := Lexes.spelled (Spelling.string hencodes) hts
  simpa using hlexes

/-- The tokens of a text are read off each of its layouts. -/
theorem tokens_of_isLayoutOf {source text : String} {us : List Token}
    (h : IsLayoutOf source text) (hyields : Yields text.toList us) :
    (Source.ofString source).tokens.1 = us := by
  obtain ⟨v, cs, hsource, hv, hcs⟩ := h
  rw [← List.append_nil text.toList] at hcs
  obtain ⟨rest, hrest, hlexes⟩ := hyields [] cs (by simp) hcs
  cases hrest with
  | nil hw =>
    have hlexes' : Lexes source.toList (us ++ []) := by
      rw [hsource]
      exact (hlexes [] (.nil hw)).blanks_append hv
    rw [List.append_nil] at hlexes'
    exact tokens_ofList_eq hlexes'

end Token

end TinyLisp
