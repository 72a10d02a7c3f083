import Mathlib.Data.List.TakeWhile
import TinyLisp.Text.Quoted

/-!
# Quoted texts are read back

What a character is shown as inside a quoted text tells where it ends, and which character
it is: `Quoted.unescape?` takes one character off the front of a quoted text
(`unescape?_escape`).  So no two texts are quoted alike (`quote_injective`).  A quoted text
never holds a newline (`newline_not_mem_quote`), and so it always fits on a line.

Neither depends on which characters are hidden.  All that matters is that a backslash is
never shown as itself.
-/

namespace TinyLisp.Quoted

/-! ### Hexadecimal digits -/

/-- The value of a hexadecimal digit in lower case. -/
def hexValue (c : Char) : ℕ :=
  if c.isDigit then c.toNat - '0'.toNat else c.toNat - 'a'.toNat + 10

/-- The number that hexadecimal digits denote. -/
def readHex (digits : List Char) : ℕ :=
  digits.foldl (fun n c => 16 * n + hexValue c) 0

/-- What holds of the sixteen digits holds of all digits of a number. -/
lemma forall_mem_toDigits {P : Char → Prop} (h : ∀ d < 16, P d.digitChar) (n : ℕ) :
    ∀ c ∈ Nat.toDigits 16 n, P c := by
  induction n using Nat.base_induction 16 (by decide) with
  | single m hm =>
    rw [Nat.toDigits_of_lt_base hm, List.forall_mem_singleton]
    exact h m hm
  | digit m k hk hm ih =>
    rw [← Nat.toDigits_append_toDigits (by decide) hm hk, List.forall_mem_append,
      Nat.toDigits_of_lt_base hk, List.forall_mem_singleton]
    exact ⟨ih, h k hk⟩

/-- A number is read back from its hexadecimal digits. -/
lemma readHex_toDigits (n : ℕ) : readHex (Nat.toDigits 16 n) = n := by
  have hdigit : ∀ d < 16, hexValue d.digitChar = d := by decide
  induction n using Nat.base_induction 16 (by decide) with
  | single m hm =>
    rw [Nat.toDigits_of_lt_base hm]
    simpa [readHex] using hdigit m hm
  | digit m k hk hm ih =>
    rw [readHex] at ih
    rw [readHex, ← Nat.toDigits_append_toDigits (by decide) hm hk, List.foldl_append, ih,
      Nat.toDigits_of_lt_base hk, List.foldl_cons, List.foldl_nil, hdigit k hk]

/-! ### Escaped characters -/

/-- The letters that stand behind a backslash, with the characters that they show. -/
def shorthands : List (Char × Char) :=
  [('0', '\x00'), ('t', '\t'), ('r', '\r'), ('n', '\n'), ('\\', '\\'), ('\x22', '\x22')]

/-- A character is shown by a letter behind a backslash, by its code point, or as itself.
Backslashes and newlines are not shown as themselves. -/
lemma escape_cases (c : Char) :
    (∃ letter, (letter, c) ∈ shorthands ∧ escape c = ['\\', letter]) ∨
      escape c = codePoint c ∨ (c ≠ '\\' ∧ c ≠ '\n' ∧ escape c = [c]) := by
  unfold escape
  split_ifs with hnull htab hreturn hnewline hslash hquote hhidden
  · exact Or.inl ⟨'0', by simp [shorthands, hnull], rfl⟩
  · exact Or.inl ⟨'t', by simp [shorthands, htab], rfl⟩
  · exact Or.inl ⟨'r', by simp [shorthands, hreturn], rfl⟩
  · exact Or.inl ⟨'n', by simp [shorthands, hnewline], rfl⟩
  · exact Or.inl ⟨'\\', by simp [shorthands, hslash], rfl⟩
  · exact Or.inl ⟨'\x22', by simp [shorthands, hquote], rfl⟩
  · exact Or.inr (Or.inl rfl)
  · exact Or.inr (Or.inr ⟨hslash, hnewline, rfl⟩)

/-! ### Reading characters back -/

/-- Takes the first character off a quoted text. -/
def unescape? : List Char → Option (Char × List Char)
  | [] => none
  | '\\' :: 'u' :: '\x7b' :: cs =>
    some (Char.ofNat (readHex (cs.takeWhile (· ≠ '\x7d'))), (cs.dropWhile (· ≠ '\x7d')).tail)
  | '\\' :: letter :: cs => (shorthands.lookup letter).map (·, cs)
  | c :: cs => some (c, cs)

/-- A character that is shown by a letter is read back. -/
lemma unescape?_shorthand {letter c : Char} (h : (letter, c) ∈ shorthands) (cs : List Char) :
    unescape? ('\\' :: letter :: cs) = some (c, cs) := by
  simp only [shorthands, List.mem_cons, List.not_mem_nil, or_false, Prod.mk.injEq] at h
  rcases h with ⟨rfl, rfl⟩ | ⟨rfl, rfl⟩ | ⟨rfl, rfl⟩ | ⟨rfl, rfl⟩ | ⟨rfl, rfl⟩ | ⟨rfl, rfl⟩ <;> rfl

/-- A character that is shown by its code point is read back. -/
lemma unescape?_codePoint (c : Char) (cs : List Char) :
    unescape? (codePoint c ++ cs) = some (c, cs) := by
  have hdigits : ∀ d ∈ Nat.toDigits 16 c.toNat, decide (d ≠ '\x7d') = true :=
    forall_mem_toDigits (by decide) c.toNat
  have hsplit : codePoint c ++ cs =
      '\\' :: 'u' :: '\x7b' :: (Nat.toDigits 16 c.toNat ++ '\x7d' :: cs) := by
    simp [codePoint]
  rw [hsplit, unescape?, List.takeWhile_append_of_pos hdigits, List.dropWhile_append_of_pos hdigits]
  simp [readHex_toDigits]

/-- Every character is read back from what it is shown as, whatever follows. -/
lemma unescape?_escape (c : Char) (cs : List Char) : unescape? (escape c ++ cs) = some (c, cs) := by
  rcases escape_cases c with ⟨letter, hletter, hescape⟩ | hescape | ⟨hslash, -, hescape⟩
  · rw [hescape]
    exact unescape?_shorthand hletter cs
  · rw [hescape]
    exact unescape?_codePoint c cs
  · rw [hescape, List.singleton_append, unescape?]
    all_goals simp [hslash]

/-- Escaped texts are alike only if the texts are. -/
lemma flatMap_escape_inj {cs ds : List Char} (h : cs.flatMap escape = ds.flatMap escape) :
    cs = ds := by
  have hnil : ∀ c (cs : List Char), (c :: cs).flatMap escape ≠ [] := by
    intro c cs heq
    have hread := unescape?_escape c (cs.flatMap escape)
    rw [← List.flatMap_cons, heq] at hread
    simp [unescape?] at hread
  induction cs generalizing ds with
  | nil =>
    cases ds with
    | nil => rfl
    | cons d ds => exact absurd h.symm (hnil d ds)
  | cons c cs ih =>
    cases ds with
    | nil => exact absurd h (hnil c cs)
    | cons d ds =>
      have hread := congrArg unescape? h
      rw [List.flatMap_cons, List.flatMap_cons, unescape?_escape, unescape?_escape] at hread
      obtain ⟨rfl, hrest⟩ := Prod.mk.inj (Option.some.inj hread)
      rw [ih hrest]

/-- No two texts are quoted alike. -/
theorem quote_injective : Function.Injective quote := by
  intro s t h
  have hchars := congrArg String.toList h
  simp only [quote, String.toList_ofList, List.cons_append, List.cons.injEq, true_and,
    List.append_left_inj] at hchars
  exact String.toList_inj.mp (flatMap_escape_inj hchars)

/-! ### Quoted texts are single lines -/

lemma newline_not_mem_codePoint (c : Char) : '\n' ∉ codePoint c := by
  have hdigits : '\n' ∉ Nat.toDigits 16 c.toNat :=
    fun hmem => forall_mem_toDigits (P := (· ≠ '\n')) (by decide) c.toNat '\n' hmem rfl
  simp [codePoint, hdigits]

lemma newline_not_mem_escape (c : Char) : '\n' ∉ escape c := by
  rcases escape_cases c with ⟨letter, hletter, hescape⟩ | hescape | ⟨-, hnewline, hescape⟩
  · have hletters : ∀ p ∈ shorthands, '\n' ∉ ['\\', p.1] := by decide
    rw [hescape]
    exact hletters _ hletter
  · rw [hescape]
    exact newline_not_mem_codePoint c
  · rw [hescape, List.mem_singleton]
    exact Ne.symm hnewline

/-- A quoted text is a single line. -/
theorem newline_not_mem_quote (s : String) : '\n' ∉ (quote s).toList := by
  rw [quote, String.toList_ofList]
  simp [newline_not_mem_escape]

end TinyLisp.Quoted
