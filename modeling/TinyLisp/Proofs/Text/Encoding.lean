import Mathlib.Data.List.Basic
import TinyLisp.Text.Utf8

/-!
# Decoding what was encoded

The bytes of a character lead the decoder from between two characters back to there, and
what it has decoded on the way is that character (`foldl_feed_utf8EncodeChar`).  So every
text is decoded from its bytes as it was (`strict?_encode`).
-/

namespace TinyLisp.Utf8

namespace Decoder

/-- What the first byte of a character tells, by its value. -/
lemma lead_ofNat (d : Decoder) {n : ℕ} (hn : n < 256) :
    d.lead (UInt8.ofNat n) =
      if n < 0x80 then d.emit (some (Char.ofNat n))
      else if n < 0xC2 then d.emit none
      else if n < 0xE0 then { d with state := .inside 0 0x80 0xBF (n % 32) }
      else if n = 0xE0 then { d with state := .inside 1 0xA0 0xBF 0 }
      else if n = 0xED then { d with state := .inside 1 0x80 0x9F 13 }
      else if n < 0xF0 then { d with state := .inside 1 0x80 0xBF (n % 16) }
      else if n = 0xF0 then { d with state := .inside 2 0x90 0xBF 0 }
      else if n < 0xF4 then { d with state := .inside 2 0x80 0xBF (n % 8) }
      else if n = 0xF4 then { d with state := .inside 2 0x80 0x8F 4 }
      else d.emit none := by
  simp [lead, UInt8.lt_iff_toNat_lt, ← UInt8.toNat_inj, Nat.mod_eq_of_lt hn]

/-- The first of two bytes. -/
lemma lead_of_two (d : Decoder) {n : ℕ} (hlo : 0xC2 ≤ n) (hhi : n < 0xE0) :
    d.lead (UInt8.ofNat n) = { d with state := .inside 0 0x80 0xBF (n % 32) } := by
  rw [lead_ofNat d (by omega), if_neg (by omega), if_neg (by omega), if_pos hhi]

/-- The first of three bytes.  The range of the second excludes overlong forms and
surrogates. -/
lemma lead_of_three (d : Decoder) {n : ℕ} (hlo : 0xE0 ≤ n) (hhi : n < 0xF0) :
    ∃ lo hi, d.lead (UInt8.ofNat n) = { d with state := .inside 1 lo hi (n % 16) } ∧
      lo.toNat = (if n = 0xE0 then 0xA0 else 0x80) ∧
      hi.toNat = if n = 0xED then 0x9F else 0xBF := by
  rw [lead_ofNat d (by omega), if_neg (by omega), if_neg (by omega), if_neg (by omega)]
  by_cases hfirst : n = 0xE0
  · subst hfirst
    exact ⟨0xA0, 0xBF, rfl, rfl, rfl⟩
  by_cases hsurrogate : n = 0xED
  · subst hsurrogate
    exact ⟨0x80, 0x9F, rfl, rfl, rfl⟩
  · exact ⟨0x80, 0xBF, by simp [hfirst, hsurrogate, hhi], by simp [hfirst], by simp [hsurrogate]⟩

/-- The first of four bytes.  The range of the second excludes overlong forms and what is
above U+10FFFF. -/
lemma lead_of_four (d : Decoder) {n : ℕ} (hlo : 0xF0 ≤ n) (hhi : n ≤ 0xF4) :
    ∃ lo hi, d.lead (UInt8.ofNat n) = { d with state := .inside 2 lo hi (n % 8) } ∧
      lo.toNat = (if n = 0xF0 then 0x90 else 0x80) ∧
      hi.toNat = if n = 0xF4 then 0x8F else 0xBF := by
  rw [lead_ofNat d (by omega), if_neg (by omega), if_neg (by omega), if_neg (by omega),
    if_neg (by omega), if_neg (by omega), if_neg (by omega)]
  by_cases hfirst : n = 0xF0
  · subst hfirst
    exact ⟨0x90, 0xBF, rfl, rfl, rfl⟩
  by_cases hlast : n = 0xF4
  · subst hlast
    exact ⟨0x80, 0x8F, rfl, rfl, rfl⟩
  · have hlt : n < 0xF4 := by omega
    exact ⟨0x80, 0xBF, by simp [hfirst, hlt], by simp [hfirst], by simp [hlast]⟩

/-- The last byte of a character completes it. -/
lemma feed_last {lo hi : UInt8} {n : ℕ} (hlo : lo.toNat ≤ n) (hhi : n ≤ hi.toNat) (acc : ℕ)
    (seen : List (Option Char)) :
    feed ⟨.inside 0 lo hi acc, seen⟩ (UInt8.ofNat n) =
      ⟨.start, some (Char.ofNat (acc * 64 + n % 64)) :: seen⟩ := by
  have hn : n < 256 := Nat.lt_of_le_of_lt hhi hi.toNat_lt
  simp [feed, emit, UInt8.le_iff_toNat_le, Nat.mod_eq_of_lt hn, hlo, hhi]

/-- A byte before it adds its bits. -/
lemma feed_middle {lo hi : UInt8} {n : ℕ} (hlo : lo.toNat ≤ n) (hhi : n ≤ hi.toNat) (need acc : ℕ)
    (seen : List (Option Char)) :
    feed ⟨.inside (need + 1) lo hi acc, seen⟩ (UInt8.ofNat n) =
      ⟨.inside need 0x80 0xBF (acc * 64 + n % 64), seen⟩ := by
  have hn : n < 256 := Nat.lt_of_le_of_lt hhi hi.toNat_lt
  simp [feed, UInt8.le_iff_toNat_le, Nat.mod_eq_of_lt hn, hlo, hhi]

/-- The bytes of a character are decoded to it. -/
lemma foldl_feed_utf8EncodeChar (c : Char) (seen : List (Option Char)) :
    (String.utf8EncodeChar c).foldl feed ⟨.start, seen⟩ = ⟨.start, some c :: seen⟩ := by
  have hvalid : c.val.toNat < 0xD800 ∨ 0xDFFF < c.val.toNat ∧ c.val.toNat < 0x110000 := c.valid
  have hchar : ∀ n, n = c.val.toNat → Char.ofNat n = c := by
    rintro n rfl
    exact Char.ofNat_toNat c
  have hstart : ∀ b, feed ⟨.start, seen⟩ b = lead ⟨.start, seen⟩ b := fun _ => rfl
  unfold String.utf8EncodeChar
  dsimp only
  split_ifs with h1 h2 h3
  · rw [List.foldl_cons, List.foldl_nil, hstart, lead_ofNat _ (by omega), if_pos (by omega),
      hchar _ rfl]
    rfl
  · rw [List.foldl_cons, List.foldl_cons, List.foldl_nil, hstart,
      lead_of_two _ (by omega) (by omega), feed_last (by simp) (by simp; omega),
      hchar _ (by omega)]
  · obtain ⟨lo, hi, hlead, hlo, hhi⟩ :=
      lead_of_three ⟨.start, seen⟩ (n := c.val.toNat / 4096 % 16 + 224) (by omega) (by omega)
    rw [List.foldl_cons, List.foldl_cons, List.foldl_cons, List.foldl_nil, hstart, hlead,
      feed_middle (by rw [hlo]; split_ifs <;> omega) (by rw [hhi]; split_ifs <;> omega),
      feed_last (by simp) (by simp; omega), hchar _ (by omega)]
  · obtain ⟨lo, hi, hlead, hlo, hhi⟩ :=
      lead_of_four ⟨.start, seen⟩ (n := c.val.toNat / 262144 % 8 + 240) (by omega) (by omega)
    rw [List.foldl_cons, List.foldl_cons, List.foldl_cons, List.foldl_cons, List.foldl_nil, hstart,
      hlead, feed_middle (by rw [hlo]; split_ifs <;> omega) (by rw [hhi]; split_ifs <;> omega),
      feed_middle (by simp) (by simp; omega), feed_last (by simp) (by simp; omega),
      hchar _ (by omega)]

/-- The bytes of characters are decoded to them. -/
lemma foldl_feed_flatMap (cs : List Char) (seen : List (Option Char)) :
    (cs.flatMap String.utf8EncodeChar).foldl feed ⟨.start, seen⟩ =
      ⟨.start, (cs.map some).reverse ++ seen⟩ := by
  induction cs generalizing seen with
  | nil => rfl
  | cons c cs ih => rw [List.flatMap_cons, List.foldl_append, foldl_feed_utf8EncodeChar, ih]; simp

end Decoder

/-- The bytes of a text hold its characters and no invalid part. -/
lemma scan_encode (s : String) : scan (encode s) = s.toList.map some := by
  unfold scan encode
  rw [Decoder.foldl_feed_flatMap]
  simp [Decoder.finish]

/-- A text is decoded from its bytes as it was. -/
theorem strict?_encode (s : String) : strict? (encode s) = some s := by
  rw [strict?, scan_encode]
  simp

end TinyLisp.Utf8
