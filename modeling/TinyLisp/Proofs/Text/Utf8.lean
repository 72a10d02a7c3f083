import Mathlib.Data.List.Basic
import TinyLisp.Text.Lines
import TinyLisp.Text.Utf8

/-!
# Decoding line by line

A newline byte is part of no longer character.  Whatever the decoder is in the middle
of, a newline ends it, and the decoder starts afresh behind it.  So it makes no
difference whether bytes are decoded all together or line by line
(`lossy_append_newline`).
-/

namespace TinyLisp.Utf8

/-- Inside a character, no byte is expected that could stand alone. -/
def State.IsStrict : State → Prop
  | .start => True
  | .inside _ lo _ _ => 0x80 ≤ lo

namespace Decoder

/-! ### What the decoder expects -/

/-- Behind the first byte of a character, only continuation bytes are expected. -/
lemma isStrict_lead (d : Decoder) (b : UInt8) : (d.lead b).state.IsStrict := by
  have hlow : (0x80 : UInt8) ≤ 0x80 ∧ (0x80 : UInt8) ≤ 0x90 ∧ (0x80 : UInt8) ≤ 0xA0 := by decide
  simp only [lead, emit, apply_ite Decoder.state, apply_ite State.IsStrict]
  simp only [State.IsStrict, hlow, ite_self]

/-- So it is behind any byte at all. -/
lemma isStrict_feed (d : Decoder) (b : UInt8) : (d.feed b).state.IsStrict := by
  unfold feed
  split
  · exact isStrict_lead d b
  · next need lo hi acc _ =>
    split_ifs
    · cases need with
      | zero => trivial
      | succ need => exact UInt8.le_refl 0x80
    · exact isStrict_lead _ b

/-- So it is behind any number of bytes. -/
lemma isStrict_foldl_feed (bytes : List UInt8) : (bytes.foldl feed {}).state.IsStrict := by
  rcases List.eq_nil_or_concat bytes with rfl | ⟨init, b, rfl⟩
  · trivial
  · rw [List.concat_eq_append, List.foldl_append]
    exact isStrict_feed _ b

/-! ### A newline -/

/-- Between two characters, a newline is read as itself. -/
lemma lead_newline (d : Decoder) : d.lead Lines.newline = d.emit (some '\n') := rfl

/-- A newline ends what the decoder is in the middle of. -/
lemma feed_newline {d : Decoder} (h : d.state.IsStrict) :
    d.feed Lines.newline = { state := .start, decoded := some '\n' :: d.finish.reverse } := by
  obtain ⟨state, decoded⟩ := d
  cases state with
  | start => simp [feed, lead_newline, emit, finish]
  | inside need lo hi acc =>
    have hlo : ¬lo ≤ Lines.newline := by
      have hlt : Lines.newline < lo := UInt8.lt_of_lt_of_le (by decide) h
      exact UInt8.not_le.mpr hlt
    simp [feed, hlo, lead_newline, emit, finish]

/-- The decoder in the same state, with more decoded before. -/
def behind (d : Decoder) (seen : List (Option Char)) : Decoder :=
  { d with decoded := d.decoded ++ seen }

lemma lead_behind (d : Decoder) (seen : List (Option Char)) (b : UInt8) :
    (d.behind seen).lead b = (d.lead b).behind seen := by
  simp only [lead, apply_ite (behind · seen)]
  rfl

/-- What has been decoded before does not matter to a byte. -/
lemma feed_behind (d : Decoder) (seen : List (Option Char)) (b : UInt8) :
    (d.behind seen).feed b = (d.feed b).behind seen := by
  obtain ⟨state, decoded⟩ := d
  cases state with
  | start => exact lead_behind _ seen b
  | inside need lo hi acc =>
    by_cases hb : lo ≤ b ∧ b ≤ hi
    · cases need <;> simp [feed, behind, emit, hb]
    · have hlead := lead_behind ⟨.start, none :: decoded⟩ seen b
      simpa [feed, behind, emit, hb] using hlead

/-- Nor does it to any number of bytes. -/
lemma foldl_feed_behind (bytes : List UInt8) (d : Decoder) (seen : List (Option Char)) :
    bytes.foldl feed (d.behind seen) = (bytes.foldl feed d).behind seen := by
  induction bytes generalizing d with
  | nil => rfl
  | cons b bytes ih => rw [List.foldl_cons, feed_behind, ih, List.foldl_cons]

lemma finish_behind (d : Decoder) (seen : List (Option Char)) :
    (d.behind seen).finish = seen.reverse ++ d.finish := by
  obtain ⟨state, decoded⟩ := d
  cases state <;> simp [behind, finish]

end Decoder

/-! ### Lines -/

/-- A line is scanned on its own. -/
lemma scan_append_newline (line rest : List UInt8) :
    scan (line ++ Lines.newline :: rest) = scan line ++ some '\n' :: scan rest := by
  have hline : (line.foldl Decoder.feed {}).feed Lines.newline =
      Decoder.behind {} (some '\n' :: (scan line).reverse) :=
    Decoder.feed_newline (Decoder.isStrict_foldl_feed line)
  have hfold : scan (line ++ Lines.newline :: rest) =
      (rest.foldl Decoder.feed (Decoder.behind {} (some '\n' :: (scan line).reverse))).finish := by
    rw [scan, List.foldl_append, List.foldl_cons, hline]
  rw [hfold, Decoder.foldl_feed_behind, Decoder.finish_behind, List.reverse_cons,
    List.reverse_reverse, List.append_assoc]
  rfl

/-- Decoding bytes is decoding a line and then the rest. -/
theorem lossy_append_newline (line rest : List UInt8) :
    lossy (line ++ Lines.newline :: rest) = lossy (line ++ [Lines.newline]) ++ lossy rest := by
  unfold lossy
  rw [scan_append_newline line rest, scan_append_newline line []]
  have hnil : scan [] = [] := rfl
  simp [hnil]

end TinyLisp.Utf8
