import Mathlib.Data.List.Chain
import TinyLisp.Proofs.Source.Reader
import TinyLisp.Proofs.Text.Lines

/-!
# How far a source has been read

A source that has been read up to some place is the same source with so many attempts made,
and with their cost consumed (`Source.advance`).  Every operation leaves such a source
behind, but for the attempt that it may have looked at (`exists_token_snd`).

The lines of a reader show in its attempts: all of a line is paid for with its first
character (`Source.HoldsLines`).  So looking beyond a character costs nothing, unless that
character is a newline (`HoldsLines.settle_advance`), and what has been consumed is the lines
up to the one with the last character taken (`consumed_advance_ofChunks`).
-/

namespace TinyLisp

/-! ### Cost -/

namespace Pull

/-- What has been consumed before adds to the bytes of a run. -/
lemma foldl_cost (n : ℕ) (pulls : List Pull) :
    pulls.foldl (fun n a => n + a.cost) n = n + total pulls := by
  induction pulls generalizing n with
  | nil => rfl
  | cons a pulls ih =>
    rw [total, List.foldl_cons, List.foldl_cons, ih, ih (0 + a.cost)]
    omega

@[simp] lemma total_append (xs ys : List Pull) : total (xs ++ ys) = total xs + total ys := by
  rw [total, List.foldl_append, foldl_cost]
  rfl

@[simp] lemma total_cons (a : Pull) (pulls : List Pull) :
    total (a :: pulls) = a.cost + total pulls := by
  rw [total, List.foldl_cons, foldl_cost, Nat.zero_add]

end Pull

namespace Source

/-! ### Making attempts -/

/-- The source when `n` attempts have been made. -/
def advance (s : Source) (n : ℕ) : Source :=
  { pulls := s.pulls.drop n, consumed := s.consumed + Pull.total (s.pulls.take n) }

lemma advance_advance (s : Source) (m n : ℕ) : (s.advance m).advance n = s.advance (m + n) := by
  simp [advance, List.take_add, Nat.add_assoc]

/-- There are no more attempts than there are. -/
lemma advance_eq (s : Source) (n : ℕ) :
    s.advance n = s.advance (s.pulls.length - (s.advance n).pulls.length) := by
  rcases Nat.le_total n s.pulls.length with hn | hn
  · have hlength : s.pulls.length - (s.advance n).pulls.length = n := by
      simp only [advance, List.length_drop]
      omega
    rw [hlength]
  · simp [advance, List.drop_of_length_le hn, List.take_of_length_le hn]

lemma skip_eq_advance (s : Source) : s.skip = s.advance 1 := by
  obtain ⟨pulls, n⟩ := s
  cases pulls <;> simp [skip, advance, Pull.total]

/-- Looking at a character before passing over it makes no difference. -/
lemma skip_settle {s : Source} {c : Char} (h : s.settle.front? = some c) :
    s.settle.skip = s.skip := by
  obtain ⟨pulls, n⟩ := s
  cases pulls with
  | nil => rfl
  | cons a pulls =>
    cases a with
    | char d k => simp [settle, skip, Pull.cost]
    | gap k => simp [settle, front?] at h

/-- A run of a class of characters is taken by as many attempts. -/
lemma advance_length_takeWhile (p : Char → Bool) (s : Source) :
    s.advance (s.pulls.takeWhile (·.holds p)).length =
      { pulls := s.pulls.dropWhile (·.holds p),
        consumed := s.consumed + Pull.total (s.pulls.takeWhile (·.holds p)) } := by
  have hsplit : s.pulls = s.pulls.takeWhile (·.holds p) ++ s.pulls.dropWhile (·.holds p) :=
    List.takeWhile_append_dropWhile.symm
  generalize s.pulls.takeWhile (·.holds p) = run at hsplit ⊢
  generalize s.pulls.dropWhile (·.holds p) = rest at hsplit ⊢
  rw [advance, hsplit, List.take_left, List.drop_left]

lemma span_snd (p : Char → Bool) (s : Source) :
    (s.span p).2 = (s.advance (s.pulls.takeWhile (·.holds p)).length).settle := by
  rw [advance_length_takeWhile]
  rfl

lemma through_snd (p : Char → Bool) (s : Source) :
    (s.through p).2 = s.advance ((s.pulls.takeWhile (·.holds p)).length + 1) := by
  rw [← advance_advance, ← skip_eq_advance, advance_length_takeWhile]
  rfl

/-- A string literal makes attempts, one after the other. -/
lemma exists_literal_rest (text : List Char) (n : ℕ) (pulls : List Pull) :
    ∃ k, (literal text n pulls).rest = advance ⟨pulls, n⟩ k := by
  fun_induction literal text n pulls with
  | case1 text n => exact ⟨0, by simp [advance, Pull.total]⟩
  | case2 text n k rest => exact ⟨1, by simp [advance, Pull.total, Pull.cost]⟩
  | case3 text n k rest => exact ⟨1, by simp [advance, Pull.total, Pull.cost]⟩
  | case4 text n k hquote => exact ⟨1, by simp [advance, Pull.total, Pull.cost]⟩
  | case5 text n k j rest hquote ih =>
    obtain ⟨m, hm⟩ := ih
    exact ⟨m + 2, by rw [hm]; simp [advance, Pull.cost, Nat.add_assoc]⟩
  | case6 text n k d j rest hquote ih =>
    obtain ⟨m, hm⟩ := ih
    exact ⟨m + 2, by rw [hm]; simp [advance, Pull.cost, Nat.add_assoc]⟩
  | case7 text n c k rest hquote hslash ih =>
    obtain ⟨m, hm⟩ := ih
    exact ⟨m + 1, by rw [hm]; simp [advance, Pull.cost, Nat.add_assoc]⟩

/-- Given its first character, a token makes attempts one after the other.  Behind a number
or a name the next attempt is looked at. -/
lemma exists_tokenFrom_snd (c : Char) (s : Source) :
    ∃ k, (tokenFrom c s).2 = s.advance k ∨
      (((tokenFrom c s).1.kind = .number ∨ (tokenFrom c s).1.kind = .atom) ∧
        (tokenFrom c s).2 = (s.advance k).settle) := by
  unfold tokenFrom
  split
  · exact ⟨0, Or.inl (by simp [advance, Pull.total])⟩
  · split_ifs
    · exact ⟨_, Or.inr ⟨Or.inl rfl, span_snd _ _⟩⟩
    · exact ⟨_, Or.inl (through_snd _ _)⟩
    · obtain ⟨k, hk⟩ := exists_literal_rest [c] s.consumed s.pulls
      exact ⟨k, Or.inl hk⟩
    · exact ⟨_, Or.inr ⟨Or.inr rfl, span_snd _ _⟩⟩

/-- So does the reading of a token, which looks at the next attempt at the end of the input
as well. -/
theorem exists_token_snd (s : Source) :
    ∃ k, s.token.2 = s.advance k ∨
      ((s.token.1.kind = .number ∨ s.token.1.kind = .atom ∨ s.token.1 = Token.endOfInput) ∧
        s.token.2 = (s.advance k).settle) := by
  unfold token
  dsimp only
  cases hfront : (s.span isSpace).2.front? with
  | none => exact ⟨_, Or.inr ⟨Or.inr (Or.inr rfl), span_snd _ _⟩⟩
  | some c =>
    rw [span_snd] at hfront ⊢
    rw [skip_settle hfront, skip_eq_advance, advance_advance]
    obtain ⟨k, hk | ⟨hkind, hk⟩⟩ := exists_tokenFrom_snd c (s.advance _)
    · exact ⟨_, Or.inl (hk.trans (advance_advance _ _ _))⟩
    · rw [advance_advance] at hk
      exact ⟨_, Or.inr ⟨hkind.imp_right Or.inl, hk⟩⟩

/-! ### Lines -/

/-- A source that has the characters `cs` and does not fail.  Nothing is consumed for a
character, unless it is the first one or stands behind a newline. -/
structure HoldsLines (s : Source) (cs : List Char) : Prop where
  free_eq : s.free = ofList cs
  costs : s.pulls.IsChain fun a b => b.cost = 0 ∨ a.char? = some '\n'

namespace HoldsLines

variable {s : Source} {cs : List Char}

lemma map_free_pulls (h : s.HoldsLines cs) : s.pulls.map Pull.free = cs.map (.char · 0) :=
  congrArg Source.pulls h.free_eq

lemma length_pulls (h : s.HoldsLines cs) : s.pulls.length = cs.length := by
  simpa using congrArg List.length h.map_free_pulls

/-- Attempts that have been made leave the characters behind them. -/
lemma advance (h : s.HoldsLines cs) (n : ℕ) : (s.advance n).HoldsLines (cs.drop n) where
  free_eq := by
    rw [free, Source.advance, List.map_drop, h.map_free_pulls, ← List.map_drop]
    rfl
  costs := h.costs.drop n

/-- Looking beyond a character consumes nothing, if that character is no newline or if there
is nothing to see. -/
lemma settle_advance {read rest : List Char} (h : s.HoldsLines (read ++ rest))
    (hlast : rest = [] ∨ ∃ c, read.getLast? = some c ∧ c ≠ '\n') :
    (s.advance read.length).settle = s.advance read.length := by
  have hread : (s.pulls.take read.length).map Pull.free = read.map (.char · 0) := by
    rw [List.map_take, h.map_free_pulls, List.map_append, List.take_left' (List.length_map _)]
  have hrest := (h.advance read.length).map_free_pulls
  rw [List.drop_left, Source.advance] at hrest
  unfold Source.advance
  cases hdrop : s.pulls.drop read.length with
  | nil => rfl
  | cons b more =>
    rw [hdrop, List.map_cons] at hrest
    obtain ⟨c, hc, hne⟩ := hlast.resolve_left (by rintro rfl; simp at hrest)
    -- the last character taken is the one before the attempt `b`
    obtain ⟨a, ha, hac⟩ : ∃ a, (s.pulls.take read.length).getLast? = some a ∧
        a.free = .char c 0 := by
      have hgetLast := congrArg List.getLast? hread
      rw [List.getLast?_map, List.getLast?_map, hc] at hgetLast
      exact Option.map_eq_some_iff.mp hgetLast
    have hchain := h.costs
    rw [← List.take_append_drop read.length s.pulls, List.isChain_append, hdrop] at hchain
    have hcost : b.cost = 0 := by
      rcases hchain.2.2 a ha b rfl with hb | hnewline
      · exact hb
      · rw [← Pull.char?_free, hac] at hnewline
        exact absurd (Option.some.inj hnewline) hne
    cases b with
    | char d k =>
      obtain rfl : k = 0 := hcost
      rfl
    | gap k =>
      obtain ⟨d, hd⟩ := List.exists_of_mem_map (hrest ▸ List.mem_cons_self)
      simp [Pull.free] at hd

end HoldsLines

/-! ### Readers -/

/-- The attempts of a reader that does not fail are those of its lines. -/
lemma readerPulls_eq_flatMap (line bytes : List UInt8) :
    readerPulls line (bytes.map some) = (Lines.splitFrom line bytes).flatMap linePulls := by
  induction bytes generalizing line with
  | nil =>
    cases line with
    | nil => rfl
    | cons b line => simp [readerPulls, Lines.splitFrom]
  | cons b bytes ih =>
    rw [List.map_cons, readerPulls, Lines.splitFrom]
    split_ifs with hb
    · rw [List.flatMap_cons, ih]
    · exact ih _

lemma readerPulls_append_newline {body : List UInt8} (h : Lines.newline ∉ body)
    (rest : List UInt8) :
    readerPulls [] ((body ++ Lines.newline :: rest).map some) =
      linePulls (body ++ [Lines.newline]) ++ readerPulls [] (rest.map some) := by
  rw [readerPulls_eq_flatMap, readerPulls_eq_flatMap, Lines.splitFrom_append_newline h,
    List.flatMap_cons, List.reverse_nil, List.nil_append]
  rfl

lemma readerPulls_of_not_mem {line : List UInt8} (h : Lines.newline ∉ line) :
    readerPulls [] (line.map some) = linePulls line := by
  rw [readerPulls_eq_flatMap, Lines.splitFrom_of_not_mem h, List.reverse_nil, List.nil_append]
  split_ifs with hline
  · rw [hline]
    rfl
  · simp

lemma length_linePulls (line : List UInt8) :
    (linePulls line).length = (Utf8.lossy line).length := by
  simpa using congrArg List.length (map_free_linePulls line)

/-- All of a line is consumed with its first character. -/
lemma total_take_linePulls {line : List UInt8} (hne : line ≠ []) {n : ℕ} (hn : n ≠ 0) :
    Pull.total ((linePulls line).take n) = line.length := by
  obtain ⟨c, cs, hcs⟩ := List.exists_cons_of_ne_nil (Utf8.lossy_ne_nil hne)
  obtain ⟨m, rfl⟩ := Nat.exists_eq_succ_of_ne_zero hn
  rw [linePulls, hcs]
  dsimp only
  rw [List.take_succ_cons, Pull.total_cons, ← List.map_take, total_map_char, Nat.add_zero,
    Pull.cost]

lemma total_linePulls {line : List UInt8} (hne : line ≠ []) :
    Pull.total (linePulls line) = line.length := by
  have hn : (linePulls line).length ≠ 0 := by
    rw [length_linePulls]
    exact mt List.length_eq_zero_iff.mp (Utf8.lossy_ne_nil hne)
  rw [← total_take_linePulls hne hn, List.take_length]

/-- Nothing is consumed for the other characters of a line. -/
lemma isChain_linePulls (line : List UInt8) :
    (linePulls line).IsChain fun a b => b.cost = 0 ∨ a.char? = some '\n' := by
  have hfree : ∀ (cs : List Char) (a : Pull),
      (a :: cs.map (.char · 0)).IsChain fun a b => b.cost = 0 ∨ a.char? = some '\n' := by
    intro cs
    induction cs with
    | nil => exact fun a => .singleton a
    | cons c cs ih => exact fun a => .cons_cons (Or.inl rfl) (ih _)
  unfold linePulls
  split
  · exact .nil
  · exact hfree _ _

/-- A line with its newline ends with the attempt that yields the newline. -/
lemma char?_of_mem_getLast?_linePulls {body : List UInt8} {a : Pull}
    (h : (linePulls (body ++ [Lines.newline])).getLast? = some a) : a.char? = some '\n' := by
  have hfree := congrArg List.getLast? (map_free_linePulls (body ++ [Lines.newline]))
  rw [List.getLast?_map, h, Utf8.lossy_concat_newline, List.map_append, List.map_singleton,
    List.getLast?_concat, Option.map_some] at hfree
  rw [← Pull.char?_free, Option.some.inj hfree]
  rfl

lemma isChain_readerPulls (bytes : List UInt8) :
    (readerPulls [] (bytes.map some)).IsChain fun a b => b.cost = 0 ∨ a.char? = some '\n' := by
  induction bytes using Lines.lines_induction with
  | nil => exact .nil
  | last line hne hline =>
    rw [readerPulls_of_not_mem hline]
    exact isChain_linePulls line
  | more body rest hbody ih =>
    rw [readerPulls_append_newline hbody, List.isChain_append]
    refine ⟨isChain_linePulls _, ih, ?_⟩
    intro a ha b _
    exact Or.inr (char?_of_mem_getLast?_linePulls ha)

/-- A reader that does not fail holds the lines of its bytes. -/
theorem holdsLines_ofChunks {chunks : List Chunk} {bytes : List UInt8}
    (h : Delivers chunks bytes) : (ofChunks chunks).HoldsLines (Utf8.lossy bytes) where
  free_eq := free_ofChunks h
  costs := by
    rw [ofChunks, h.flatMap_bytes]
    exact isChain_readerPulls bytes

/-- The attempts that yield the first characters of a reader consume the lines up to the one
that these characters end on. -/
lemma total_take_readerPulls {bytes : List UInt8} {read rest : List Char} (hne : read ≠ [])
    (h : Utf8.lossy bytes = read ++ rest) :
    Pull.total ((readerPulls [] (bytes.map some)).take read.length) =
      (Lines.through bytes (Lines.lastLine read)).length := by
  have hn : read.length ≠ 0 := mt List.length_eq_zero_iff.mp hne
  induction bytes using Lines.lines_induction generalizing read with
  | nil => exact absurd (List.append_eq_nil_iff.mp h.symm).1 hne
  | last line hline hnot =>
    rw [readerPulls_of_not_mem hnot, Lines.through_of_not_mem hline hnot,
      total_take_linePulls hline hn]
  | more body bytes hbody ih =>
    have hline : body ++ [Lines.newline] ≠ [] := by simp
    rw [Utf8.lossy_append_newline, List.append_eq_append_iff] at h
    have hcases : (∃ later, later ≠ [] ∧ read = Utf8.lossy (body ++ [Lines.newline]) ++ later ∧
        Utf8.lossy bytes = later ++ rest) ∨
        ∃ more, Utf8.lossy (body ++ [Lines.newline]) = read ++ more := by
      rcases h with ⟨later, hlater, hrest⟩ | ⟨more, hmore, -⟩
      · by_cases hnil : later = []
        · exact Or.inr ⟨[], by rw [hlater, hnil, List.append_nil, List.append_nil]⟩
        · exact Or.inl ⟨later, hnil, hlater, hrest⟩
      · exact Or.inr ⟨more, hmore⟩
    rw [readerPulls_append_newline hbody]
    rcases hcases with ⟨later, hnil, rfl, hrest⟩ | ⟨more, hmore⟩
    · rw [Lines.lastLine_line_append hbody hnil, Lines.through_append_newline_succ hbody,
        List.length_append, List.length_append, ← length_linePulls, List.take_length_add_append,
        Pull.total_append, ih hnil hrest (mt List.length_eq_zero_iff.mp hnil),
        total_linePulls hline]
    · have hle : read.length ≤ (linePulls (body ++ [Lines.newline])).length := by
        rw [length_linePulls, hmore, List.length_append]
        exact Nat.le_add_right _ _
      rw [List.take_append_of_le_length hle, total_take_linePulls hline hn,
        Lines.lastLine_of_line hbody hmore, Lines.through_append_newline_zero hbody]

/-- What has been consumed of a reader is the lines up to the one with the last character
taken. -/
theorem consumed_advance_ofChunks {chunks : List Chunk} {bytes : List UInt8}
    {read rest : List Char} (h : Delivers chunks bytes) (hne : read ≠ [])
    (hread : Utf8.lossy bytes = read ++ rest) :
    ((ofChunks chunks).advance read.length).consumed =
      (Lines.through bytes (Lines.lastLine read)).length := by
  rw [← total_take_readerPulls hne hread, advance, ofChunks, h.flatMap_bytes, Nat.zero_add]

end Source

end TinyLisp
