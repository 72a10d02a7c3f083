import TinyLisp.Proofs.Text.Encoding
import TinyLisp.Proofs.Text.Utf8

/-!
# Lines of bytes and lines of characters

A byte sequence is cut behind each of its newlines.  The cut is described by two equations,
for a line with its newline (`split_append_newline`) and for a last line without one
(`split_of_not_mem`), and by the induction that goes with them (`lines_induction`).

Bytes are decoded line by line, and a newline among the characters comes from a newline
byte only (`Utf8.newline_not_mem_lossy`).  So the bytes and the characters that they are
decoded to have the same lines, and there are as many of them (`length_split`).

`through` has the bytes of the lines up to one of them, and `lastLine` is the line that some
characters end on.  Each further line has further bytes (`length_through_le_iff`).
-/

namespace TinyLisp

namespace Lines

/-! ### Cutting bytes into lines -/

/-- The first line goes up to the first newline. -/
lemma splitFrom_append_newline {body : List UInt8} (h : newline ∉ body) (line rest : List UInt8) :
    splitFrom line (body ++ newline :: rest) =
      (line.reverse ++ body ++ [newline]) :: split rest := by
  induction body generalizing line with
  | nil => simp [splitFrom, split]
  | cons b body ih =>
    rw [List.mem_cons, not_or] at h
    rw [List.cons_append, splitFrom, if_neg (Ne.symm h.1), ih h.2]
    simp

/-- Without a newline there is one line at most. -/
lemma splitFrom_of_not_mem {body : List UInt8} (h : newline ∉ body) (line : List UInt8) :
    splitFrom line body = if line.reverse ++ body = [] then [] else [line.reverse ++ body] := by
  induction body generalizing line with
  | nil => simp [splitFrom]
  | cons b body ih =>
    rw [List.mem_cons, not_or] at h
    rw [splitFrom, if_neg (Ne.symm h.1), ih h.2]
    simp

lemma split_append_newline {body : List UInt8} (h : newline ∉ body) (rest : List UInt8) :
    split (body ++ newline :: rest) = (body ++ [newline]) :: split rest := by
  simpa [split] using splitFrom_append_newline h [] rest

lemma split_of_not_mem {line : List UInt8} (hne : line ≠ []) (h : newline ∉ line) :
    split line = [line] := by
  simpa [split, hne] using splitFrom_of_not_mem h []

/-- Induction along the lines of a byte sequence. -/
theorem lines_induction {motive : List UInt8 → Prop} (nil : motive [])
    (last : ∀ line : List UInt8, line ≠ [] → newline ∉ line → motive line)
    (more : ∀ body rest : List UInt8, newline ∉ body → motive rest →
      motive (body ++ newline :: rest))
    (bytes : List UInt8) : motive bytes := by
  by_cases hmem : newline ∈ bytes
  · obtain ⟨body, rest, hbytes, hbody⟩ := List.eq_append_cons_of_mem hmem
    have hlt : rest.length < bytes.length := by
      rw [hbytes, List.length_append, List.length_cons]
      omega
    rw [hbytes]
    exact more body rest hbody (lines_induction nil last more rest)
  · by_cases hne : bytes = []
    · exact hne ▸ nil
    · exact last bytes hne hmem
termination_by bytes.length

/-- The lines together are all the bytes. -/
lemma flatten_split (bytes : List UInt8) : (split bytes).flatten = bytes := by
  induction bytes using lines_induction with
  | nil => rfl
  | last line hne hline => rw [split_of_not_mem hne hline, List.flatten_singleton]
  | more body rest hbody ih =>
    rw [split_append_newline hbody, List.flatten_cons, ih]
    simp

/-- Bytes that end with a newline, or not at all, have their lines to themselves. -/
lemma split_append {xs : List UInt8} (h : ∀ b ∈ xs.getLast?, b = newline) (ys : List UInt8) :
    split (xs ++ ys) = split xs ++ split ys := by
  induction xs using lines_induction with
  | nil => rfl
  | last line hne hline =>
    have hlast := h _ (List.getLast?_eq_some_getLast hne)
    exact absurd (hlast ▸ List.getLast_mem hne) hline
  | more body rest hbody ih =>
    have hrest : ∀ b ∈ rest.getLast?, b = newline := by
      intro b hb
      apply h
      rw [List.getLast?_append, List.getLast?_cons, Option.mem_def.mp hb]
      rfl
    rw [List.append_assoc, List.cons_append, split_append_newline hbody,
      split_append_newline hbody, ih hrest, List.cons_append]

end Lines

namespace Utf8

/-! ### Newlines among characters -/

/-- Inside a character, the bits gathered and the least byte that may follow make more than
a control character. -/
def State.IsLong : State → Prop
  | .start => True
  | .inside _ lo hi acc => 0x10 ≤ acc * 64 + lo.toNat % 64 ∧ 0x80 ≤ lo.toNat ∧ hi.toNat < 0xC0

/-- Only its own code point stands for a newline. -/
lemma ofNat_ne_newline {n : ℕ} (h : n ≠ 10) : Char.ofNat n ≠ '\n' := by
  intro heq
  have hnat : (Char.ofNat n).toNat = 10 := congrArg Char.toNat heq
  by_cases hvalid : n.isValidChar
  · have hself : Char.ofNat n = Char.ofNatAux n hvalid := dif_pos hvalid
    rw [hself] at hnat
    exact h hnat
  · have hzero : Char.ofNat n = '\x00' := dif_neg hvalid
    rw [hzero] at hnat
    exact absurd hnat (by decide)

namespace Decoder

/-- A decoder that has met no newline. -/
structure IsInLine (d : Decoder) : Prop where
  state : d.state.IsLong
  decoded : some '\n' ∉ d.decoded

lemma IsInLine.emit {d : Decoder} (h : d.IsInLine) {c : Option Char} (hc : c ≠ some '\n') :
    (d.emit c).IsInLine :=
  ⟨trivial, by simpa [Decoder.emit, h.decoded] using hc.symm⟩

lemma IsInLine.lead {d : Decoder} (h : d.IsInLine) {b : UInt8} (hb : b ≠ Lines.newline) :
    (d.lead b).IsInLine := by
  have hten : b.toNat ≠ 10 := fun heq => hb (UInt8.toNat_inj.mp heq)
  have hstate : ∀ need lo hi acc, State.IsLong (.inside need lo hi acc) →
      IsInLine { d with state := .inside need lo hi acc } :=
    fun _ _ _ _ hlong => ⟨hlong, h.decoded⟩
  rw [← UInt8.ofNat_toNat (x := b), lead_ofNat d b.toNat_lt]
  -- one range of first bytes after the other
  repeat' refine iteInduction (motive := IsInLine) (fun _ => ?_) fun _ => ?_
  · apply h.emit
    simpa using ofNat_ne_newline hten
  · exact h.emit (by simp)
  · exact hstate _ _ _ _ ⟨by simp; omega, by simp, by simp⟩
  · exact hstate _ _ _ _ ⟨by simp, by simp, by simp⟩
  · exact hstate _ _ _ _ ⟨by simp, by simp, by simp⟩
  · exact hstate _ _ _ _ ⟨by simp; omega, by simp, by simp⟩
  · exact hstate _ _ _ _ ⟨by simp, by simp, by simp⟩
  · exact hstate _ _ _ _ ⟨by simp; omega, by simp, by simp⟩
  · exact hstate _ _ _ _ ⟨by simp, by simp, by simp⟩
  · exact h.emit (by simp)

lemma IsInLine.feed {d : Decoder} (h : d.IsInLine) {b : UInt8} (hb : b ≠ Lines.newline) :
    (d.feed b).IsInLine := by
  unfold Decoder.feed
  split
  · exact h.lead hb
  · next need lo hi acc hd =>
    have hlong := h.state
    rw [hd] at hlong
    obtain ⟨hbits, hlo, hhi⟩ := hlong
    split_ifs with hrange
    · rw [UInt8.le_iff_toNat_le, UInt8.le_iff_toNat_le] at hrange
      cases need with
      | zero =>
        apply h.emit
        simpa using ofNat_ne_newline (n := acc * 64 + b.toNat % 64) (by omega)
      | succ need => exact ⟨⟨by simp; omega, by simp, by simp⟩, h.decoded⟩
    · exact (h.emit (by simp)).lead hb

lemma IsInLine.finish {d : Decoder} (h : d.IsInLine) : some '\n' ∉ d.finish := by
  unfold Decoder.finish
  split <;> simpa using h.decoded

end Decoder

/-- Bytes without a newline are decoded to characters without a newline. -/
theorem newline_not_mem_lossy {line : List UInt8} (h : Lines.newline ∉ line) :
    '\n' ∉ lossy line := by
  have hfold : ∀ (bytes : List UInt8) (d : Decoder), d.IsInLine → Lines.newline ∉ bytes →
      (bytes.foldl Decoder.feed d).IsInLine := by
    intro bytes
    induction bytes with
    | nil => exact fun d hd _ => hd
    | cons b bytes ih =>
      intro d hd hbytes
      rw [List.mem_cons, not_or] at hbytes
      exact ih _ (hd.feed (Ne.symm hbytes.1)) hbytes.2
  have hscan : some '\n' ∉ scan line := (hfold line {} ⟨trivial, by simp⟩ h).finish
  intro hmem
  obtain ⟨c, hc, hnewline⟩ := List.mem_map.mp hmem
  cases c with
  | none => simp [replacement] at hnewline
  | some c =>
    obtain rfl : c = '\n' := hnewline
    exact hscan hc

namespace Decoder

/-- The first byte of a character leaves a trace. -/
lemma finish_lead_ne_nil (d : Decoder) (b : UInt8) : (d.lead b).finish ≠ [] := by
  simp only [lead, emit, apply_ite finish, apply_ite (· ≠ [])]
  simp [finish]

/-- So does any other byte. -/
lemma finish_feed_ne_nil (d : Decoder) (b : UInt8) : (d.feed b).finish ≠ [] := by
  unfold feed
  split
  · exact finish_lead_ne_nil d b
  · next need lo hi acc hd =>
    split_ifs
    · cases need <;> simp [emit, finish]
    · exact finish_lead_ne_nil _ b

end Decoder

/-- Bytes are decoded to at least one character, unless there are none. -/
lemma lossy_ne_nil {bytes : List UInt8} (h : bytes ≠ []) : lossy bytes ≠ [] := by
  obtain ⟨init, b, rfl⟩ := (List.eq_nil_or_concat bytes).resolve_left h
  have hfeed := Decoder.finish_feed_ne_nil (init.foldl Decoder.feed {}) b
  rw [lossy, scan, List.concat_eq_append, List.foldl_append]
  simpa using hfeed

/-- A line is decoded to the characters before its newline, and the newline. -/
lemma lossy_concat_newline (line : List UInt8) :
    lossy (line ++ [Lines.newline]) = lossy line ++ ['\n'] := by
  have hscan := scan_append_newline line []
  rw [lossy, hscan]
  simp [lossy, scan, Decoder.finish]

end Utf8

namespace Lines

/-! ### The lines up to one of them -/

/-- The bytes of the lines up to line `k`, where the first line is line 0. -/
def through (bytes : List UInt8) (k : ℕ) : List UInt8 :=
  ((split bytes).take (k + 1)).flatten

/-- The line that a text ends on.  A newline is still on the line that it ends. -/
def lastLine (cs : List Char) : ℕ :=
  cs.dropLast.count '\n'

lemma through_of_not_mem {line : List UInt8} (hne : line ≠ []) (h : newline ∉ line) (k : ℕ) :
    through line k = line := by
  rw [through, split_of_not_mem hne h, List.take_succ_cons, List.take_nil, List.flatten_singleton]

lemma through_append_newline_zero {body : List UInt8} (h : newline ∉ body) (rest : List UInt8) :
    through (body ++ newline :: rest) 0 = body ++ [newline] := by
  rw [through, split_append_newline h, List.take_succ_cons, List.take_zero, List.flatten_singleton]

lemma through_append_newline_succ {body : List UInt8} (h : newline ∉ body) (rest : List UInt8)
    (k : ℕ) : through (body ++ newline :: rest) (k + 1) = body ++ [newline] ++ through rest k := by
  rw [through, split_append_newline h, List.take_succ_cons, List.flatten_cons, through]

lemma ne_nil_of_mem_split {bytes line : List UInt8} (h : line ∈ split bytes) : line ≠ [] := by
  induction bytes using lines_induction with
  | nil => simp [split, splitFrom] at h
  | last line' hne hline =>
    rw [split_of_not_mem hne hline, List.mem_singleton] at h
    exact h ▸ hne
  | more body rest hbody ih =>
    rw [split_append_newline hbody, List.mem_cons] at h
    rcases h with rfl | h
    · simp
    · exact ih h

/-- A further line means further bytes. -/
lemma length_through_lt {bytes : List UInt8} {j k : ℕ} (hjk : j < k)
    (hk : k < (split bytes).length) : (through bytes j).length < (through bytes k).length := by
  obtain ⟨d, rfl⟩ := Nat.exists_eq_add_of_lt hjk
  have htake : (split bytes).take (j + d + 1 + 1) =
      (split bytes).take (j + 1) ++ ((split bytes).drop (j + 1)).take (d + 1) := by
    rw [← List.take_add]
    congr 1
    omega
  cases hrest : (split bytes).drop (j + 1) with
  | nil =>
    have := List.drop_eq_nil_iff.mp hrest
    omega
  | cons line more =>
    have hline : line ≠ [] :=
      ne_nil_of_mem_split (List.mem_of_mem_drop (hrest ▸ List.mem_cons_self))
    rw [through, through, htake, hrest, List.flatten_append, List.take_succ_cons,
      List.flatten_cons, List.length_append, List.length_append]
    have := List.length_pos_iff.mpr hline
    omega

/-- So the lines can be told from the number of their bytes. -/
lemma length_through_le_iff {bytes : List UInt8} {j k : ℕ} (hk : k < (split bytes).length) :
    (through bytes k).length ≤ (through bytes j).length ↔ k ≤ j := by
  constructor
  · intro hle
    by_contra hjk
    have := length_through_lt (Nat.not_le.mp hjk) hk
    omega
  · intro hkj
    obtain ⟨more, hmore⟩ : (split bytes).take (k + 1) <+: (split bytes).take (j + 1) :=
      List.take_prefix_take_left (by omega)
    rw [through, through, ← hmore, List.flatten_append, List.length_append]
    exact Nat.le_add_right _ _

/-! ### The line that a text ends on -/

lemma lastLine_of_not_mem {cs : List Char} (h : '\n' ∉ cs) : lastLine cs = 0 :=
  List.count_eq_zero.mpr fun hmem => h (List.dropLast_subset cs hmem)

@[simp] lemma lastLine_concat (cs : List Char) (c : Char) :
    lastLine (cs ++ [c]) = cs.count '\n' := by
  rw [lastLine, List.dropLast_concat]

lemma lastLine_append {ys : List Char} (hne : ys ≠ []) (xs : List Char) :
    lastLine (xs ++ ys) = xs.count '\n' + lastLine ys := by
  rw [lastLine, List.dropLast_append_of_ne_nil hne, List.count_append, lastLine]

lemma lastLine_le_append (xs ys : List Char) : lastLine xs ≤ lastLine (xs ++ ys) := by
  by_cases hne : ys = []
  · simp [hne]
  · rw [lastLine_append hne]
    exact Nat.le_add_right_of_le ((List.dropLast_sublist xs).count_le '\n')

/-- A text that does not end with a newline ends on the line behind its last newline. -/
lemma lastLine_eq_count {cs : List Char} {c : Char} (h : cs.getLast? = some c) (hc : c ≠ '\n') :
    lastLine cs = cs.count '\n' := by
  obtain ⟨init, rfl⟩ := List.getLast?_eq_some_iff.mp h
  rw [lastLine_concat, List.count_append, List.count_singleton, if_neg (by simpa using hc),
    Nat.add_zero]

/-- What begins the first line does not end on another one. -/
lemma lastLine_of_line {body : List UInt8} (hbody : newline ∉ body) {read more : List Char}
    (h : Utf8.lossy (body ++ [newline]) = read ++ more) : lastLine read = 0 := by
  have hle := lastLine_le_append read more
  rw [← h, Utf8.lossy_concat_newline, lastLine_concat,
    List.count_eq_zero.mpr (Utf8.newline_not_mem_lossy hbody)] at hle
  exact Nat.le_zero.mp hle

/-- What goes on behind the first line ends one line further down. -/
lemma lastLine_line_append {body : List UInt8} (hbody : newline ∉ body) {later : List Char}
    (hne : later ≠ []) :
    lastLine (Utf8.lossy (body ++ [newline]) ++ later) = lastLine later + 1 := by
  rw [lastLine_append hne, Utf8.lossy_concat_newline, List.count_append,
    List.count_eq_zero.mpr (Utf8.newline_not_mem_lossy hbody), List.count_singleton_self]
  omega

/-- The last line of the characters is the last line of the bytes. -/
lemma length_split {bytes : List UInt8} (h : bytes ≠ []) :
    (split bytes).length = lastLine (Utf8.lossy bytes) + 1 := by
  induction bytes using lines_induction with
  | nil => exact absurd rfl h
  | last line hne hline =>
    rw [split_of_not_mem hne hline, lastLine_of_not_mem (Utf8.newline_not_mem_lossy hline)]
    rfl
  | more body rest hbody ih =>
    rw [split_append_newline hbody, List.length_cons, Utf8.lossy_append_newline]
    by_cases hrest : rest = []
    · have hnil : Utf8.lossy [] = [] := rfl
      rw [hrest, hnil, List.append_nil, lastLine_of_line hbody (List.append_nil _).symm]
      rfl
    · rw [ih hrest, lastLine_line_append hbody (Utf8.lossy_ne_nil hrest)]

/-- The lines up to the one that all the characters end on are all lines. -/
lemma through_lastLine_lossy {bytes : List UInt8} (h : bytes ≠ []) :
    through bytes (lastLine (Utf8.lossy bytes)) = bytes := by
  rw [through, ← length_split h, List.take_length, flatten_split]

end Lines

end TinyLisp
