import TinyLisp.Proofs.Text.Encoding
import TinyLisp.Proofs.Text.Utf8

/-!
# Decoding with replacement

What `lossy` makes of any bytes is said here without the decoder (`Decodes`).  The bytes of a
character are decoded to that character.  Where no character stands, the bytes are replaced:
as many of them together as some character starts with, or a single one if no character starts
there (`IsInvalidPart`).

The decoder does just that (`decodes_iff`).  While it is inside a character, the bytes that it
expects complete some character, whichever they are (`Expects`), and no character has a byte
there that it does not expect (`Decoder.not_isInitial`).  So an invalid part ends where the
decoder finds that it does (`startsWithPart`).
-/

namespace TinyLisp.Utf8

/-- Some character starts with these bytes. -/
def IsInitial (part : List UInt8) : Prop :=
  ∃ c, part <+: String.utf8EncodeChar c

/-- The bytes `part`, which stand before `rest`, are replaced together. -/
structure IsInvalidPart (part rest : List UInt8) : Prop where
  ne_nil : part ≠ []
  /-- No character stands there. -/
  not_char : ∀ c, ¬String.utf8EncodeChar c <+: part ++ rest
  /-- Some character starts with the part, unless it is a single byte. -/
  single_or_initial : part.length = 1 ∨ IsInitial part
  /-- No character starts with the part and the next byte. -/
  maximal : ∀ b ∈ rest.head?, ¬IsInitial (part ++ [b])

/-- The characters that bytes are decoded to, invalid parts being replaced. -/
inductive Decodes : List UInt8 → List Char → Prop
  | nil : Decodes [] []
  | char (c : Char) {rest : List UInt8} {cs : List Char} (h : Decodes rest cs) :
      Decodes (String.utf8EncodeChar c ++ rest) (c :: cs)
  | replaced {part rest : List UInt8} {cs : List Char} (hpart : IsInvalidPart part rest)
      (h : Decodes rest cs) : Decodes (part ++ rest) (replacement :: cs)

/-! ### Invalid parts -/

/-- A character that starts with some bytes starts with the first of them. -/
lemma IsInitial.of_isPrefix {part more : List UInt8} (h : IsInitial more) (hpart : part <+: more) :
    IsInitial part := by
  obtain ⟨c, hc⟩ := h
  exact ⟨c, hpart.trans hc⟩

/-- Bytes in which no character ends, and behind which none goes on, are an invalid part. -/
lemma IsInvalidPart.of_not_isPrefix {part rest : List UInt8} (hne : part ≠ [])
    (hnot : ∀ c, ¬String.utf8EncodeChar c <+: part) (hstart : part.length = 1 ∨ IsInitial part)
    (hnext : ∀ b ∈ rest.head?, ¬IsInitial (part ++ [b])) : IsInvalidPart part rest := by
  refine ⟨hne, ?_, hstart, hnext⟩
  intro c hc
  rcases List.prefix_or_prefix_of_prefix hc (List.prefix_append part rest) with h | ⟨more, hmore⟩
  · exact hnot c h
  · -- a character that goes on behind the part goes on with the byte behind it
    cases more with
    | nil =>
      rw [List.append_nil] at hmore
      exact hnot c (hmore ▸ List.prefix_rfl)
    | cons b more =>
      rw [← hmore, List.prefix_append_right_inj] at hc
      obtain ⟨rest', rfl⟩ := hc
      apply hnext b rfl
      exact ⟨c, more, by rw [← hmore, List.append_assoc, List.singleton_append]⟩

/-- An invalid part reaches as far as any other that starts at the same place. -/
lemma IsInvalidPart.length_le {part rest part' rest' : List UInt8} (h : IsInvalidPart part rest)
    (h' : IsInvalidPart part' rest') (heq : part ++ rest = part' ++ rest') :
    part'.length ≤ part.length := by
  by_contra hlt
  rw [Nat.not_le] at hlt
  obtain ⟨more, rfl⟩ : part <+: part' :=
    List.prefix_of_prefix_length_le ⟨rest, heq⟩ (List.prefix_append part' rest')
      (Nat.le_of_lt hlt)
  rw [List.append_assoc, List.append_cancel_left_eq] at heq
  cases more with
  | nil => simp at hlt
  | cons b more =>
    have hlong : (part ++ b :: more).length ≠ 1 := by
      have hpos := List.length_pos_iff.mpr h.ne_nil
      rw [List.length_append, List.length_cons]
      omega
    apply h.maximal b (by rw [heq]; rfl)
    apply (h'.single_or_initial.resolve_left hlong).of_isPrefix
    exact ⟨more, by rw [List.append_assoc, List.singleton_append]⟩

/-- There is only one invalid part at a place. -/
lemma IsInvalidPart.unique {part rest part' rest' : List UInt8} (h : IsInvalidPart part rest)
    (h' : IsInvalidPart part' rest') (heq : part ++ rest = part' ++ rest') :
    part = part' ∧ rest = rest' := by
  apply List.append_inj heq
  exact Nat.le_antisymm (h'.length_le h heq.symm) (h.length_le h' heq)

/-! ### Bytes that make a character -/

/-- A code point that stands for a character is the code point of that character. -/
lemma toNat_val_ofNat {n : ℕ} (h : n.isValidChar) : (Char.ofNat n).val.toNat = n := by
  have hself : Char.ofNat n = Char.ofNatAux n h := dif_pos h
  rw [hself]
  rfl

/-- Bytes of their ranges make a character of two bytes. -/
lemma exists_char_of_two {n m : ℕ} (hn : 0xC2 ≤ n) (hn' : n < 0xE0) (hm : 0x80 ≤ m)
    (hm' : m ≤ 0xBF) : ∃ c, String.utf8EncodeChar c = [UInt8.ofNat n, UInt8.ofNat m] := by
  have hval := toNat_val_ofNat (n := n % 32 * 64 + m % 64) (Or.inl (by omega))
  refine ⟨Char.ofNat (n % 32 * 64 + m % 64), ?_⟩
  unfold String.utf8EncodeChar
  dsimp only
  rw [hval, if_neg (by omega), if_pos (by omega)]
  congr 3 <;> omega

/-- Bytes of their ranges make a character of three bytes. -/
lemma exists_char_of_three {n m k : ℕ} (hn : 0xE0 ≤ n) (hn' : n < 0xF0)
    (hm : (if n = 0xE0 then 0xA0 else 0x80) ≤ m) (hm' : m ≤ if n = 0xED then 0x9F else 0xBF)
    (hk : 0x80 ≤ k) (hk' : k ≤ 0xBF) :
    ∃ c, String.utf8EncodeChar c = [UInt8.ofNat n, UInt8.ofNat m, UInt8.ofNat k] := by
  -- no overlong form, no surrogate
  have hvalue : 0x800 ≤ n % 16 * 4096 + m % 64 * 64 + k % 64 ∧
      (n % 16 * 4096 + m % 64 * 64 + k % 64).isValidChar := by
    unfold Nat.isValidChar
    split_ifs at hm hm' <;> omega
  have hrange : 0x80 ≤ m ∧ m ≤ 0xBF := by
    split_ifs at hm hm' <;> omega
  refine ⟨Char.ofNat (n % 16 * 4096 + m % 64 * 64 + k % 64), ?_⟩
  unfold String.utf8EncodeChar
  dsimp only
  rw [toNat_val_ofNat hvalue.2, if_neg (by omega), if_neg (by omega), if_pos (by omega)]
  congr 4 <;> omega

/-- Bytes of their ranges make a character of four bytes. -/
lemma exists_char_of_four {n m k l : ℕ} (hn : 0xF0 ≤ n) (hn' : n ≤ 0xF4)
    (hm : (if n = 0xF0 then 0x90 else 0x80) ≤ m) (hm' : m ≤ if n = 0xF4 then 0x8F else 0xBF)
    (hk : 0x80 ≤ k) (hk' : k ≤ 0xBF) (hl : 0x80 ≤ l) (hl' : l ≤ 0xBF) :
    ∃ c, String.utf8EncodeChar c =
      [UInt8.ofNat n, UInt8.ofNat m, UInt8.ofNat k, UInt8.ofNat l] := by
  -- no overlong form, nothing above U+10FFFF
  have hvalue : 0x10000 ≤ n % 8 * 262144 + m % 64 * 4096 + k % 64 * 64 + l % 64 ∧
      (n % 8 * 262144 + m % 64 * 4096 + k % 64 * 64 + l % 64).isValidChar := by
    unfold Nat.isValidChar
    split_ifs at hm hm' <;> omega
  have hrange : 0x80 ≤ m ∧ m ≤ 0xBF := by
    split_ifs at hm hm' <;> omega
  refine ⟨Char.ofNat (n % 8 * 262144 + m % 64 * 4096 + k % 64 * 64 + l % 64), ?_⟩
  unfold String.utf8EncodeChar
  dsimp only
  rw [toNat_val_ofNat hvalue.2, if_neg (by omega), if_neg (by omega), if_neg (by omega)]
  congr 5 <;> omega

/-! ### What the decoder expects -/

/-- A continuation byte. -/
def IsContinuation (b : UInt8) : Prop :=
  0x80 ≤ b ∧ b ≤ 0xBF

/-- Behind `part`, any byte in `lo`–`hi` and any `need` continuation bytes complete a
character. -/
structure Expects (part : List UInt8) (need : ℕ) (lo hi : UInt8) : Prop where
  lo_le_hi : lo ≤ hi
  exists_char : ∀ (b : UInt8) (tail : List UInt8), lo ≤ b → b ≤ hi → tail.length = need →
    (∀ t ∈ tail, IsContinuation t) → ∃ c, String.utf8EncodeChar c = part ++ b :: tail

namespace Expects

variable {part : List UInt8} {need : ℕ} {lo hi b : UInt8}

/-- Some character goes on with a byte that is expected. -/
lemma isInitial_concat (h : Expects part need lo hi) (hlo : lo ≤ b) (hhi : b ≤ hi) :
    IsInitial (part ++ [b]) := by
  have htail : ∀ t ∈ List.replicate need (0x80 : UInt8), IsContinuation t := by
    intro t ht
    rw [List.eq_of_mem_replicate ht]
    exact ⟨UInt8.le_refl _, by decide⟩
  obtain ⟨c, hc⟩ := h.exists_char b _ hlo hhi List.length_replicate htail
  exact ⟨c, _, by rw [hc, List.append_assoc, List.singleton_append]⟩

/-- So some character starts with the bytes before it. -/
lemma isInitial (h : Expects part need lo hi) : IsInitial part :=
  (h.isInitial_concat (UInt8.le_refl lo) h.lo_le_hi).of_isPrefix (List.prefix_append _ _)

/-- Behind a byte that is expected, continuation bytes are. -/
lemma concat (h : Expects part (need + 1) lo hi) (hlo : lo ≤ b) (hhi : b ≤ hi) :
    Expects (part ++ [b]) need 0x80 0xBF where
  lo_le_hi := by decide
  exists_char := by
    intro b' tail hlo' hhi' hlength htail
    have htail' : ∀ t ∈ b' :: tail, IsContinuation t := by
      rintro t (_ | ⟨_, ht⟩)
      · exact ⟨hlo', hhi'⟩
      · exact htail t ht
    have hlength' : (b' :: tail).length = need + 1 := by rw [List.length_cons, hlength]
    obtain ⟨c, hc⟩ := h.exists_char b (b' :: tail) hlo hhi hlength' htail'
    exact ⟨c, by rw [hc, List.append_assoc, List.singleton_append]⟩

end Expects

namespace Decoder

/-- Behind the first of two bytes, a continuation byte is expected. -/
lemma exists_expects_of_two {n : ℕ} (hlo : 0xC2 ≤ n) (hhi : n < 0xE0) :
    ∃ need lo hi acc, lead {} (UInt8.ofNat n) = ⟨.inside need lo hi acc, []⟩ ∧
      Expects [UInt8.ofNat n] need lo hi := by
  refine ⟨0, 0x80, 0xBF, _, lead_of_two {} hlo hhi, by decide, ?_⟩
  intro b tail hb hb' hlength _
  obtain rfl := List.length_eq_zero_iff.mp hlength
  rw [← UInt8.ofNat_toNat (x := b)]
  exact exists_char_of_two hlo hhi hb hb'

/-- Behind the first of three bytes, two more are expected. -/
lemma exists_expects_of_three {n : ℕ} (hlo : 0xE0 ≤ n) (hhi : n < 0xF0) :
    ∃ need lo hi acc, lead {} (UInt8.ofNat n) = ⟨.inside need lo hi acc, []⟩ ∧
      Expects [UInt8.ofNat n] need lo hi := by
  obtain ⟨lo, hi, hlead, hlow, hhigh⟩ := lead_of_three {} hlo hhi
  refine ⟨1, lo, hi, _, hlead, ?_, ?_⟩
  · rw [UInt8.le_iff_toNat_le, hlow, hhigh]
    split_ifs <;> omega
  · intro b tail hb hb' hlength htail
    obtain ⟨t, rfl⟩ := List.length_eq_one_iff.mp hlength
    obtain ⟨ht, ht'⟩ := htail t (by simp)
    rw [← UInt8.ofNat_toNat (x := b), ← UInt8.ofNat_toNat (x := t)]
    exact exists_char_of_three hlo hhi (hlow ▸ hb) (hhigh ▸ hb') ht ht'

/-- Behind the first of four bytes, three more are expected. -/
lemma exists_expects_of_four {n : ℕ} (hlo : 0xF0 ≤ n) (hhi : n ≤ 0xF4) :
    ∃ need lo hi acc, lead {} (UInt8.ofNat n) = ⟨.inside need lo hi acc, []⟩ ∧
      Expects [UInt8.ofNat n] need lo hi := by
  obtain ⟨lo, hi, hlead, hlow, hhigh⟩ := lead_of_four {} hlo hhi
  refine ⟨2, lo, hi, _, hlead, ?_, ?_⟩
  · rw [UInt8.le_iff_toNat_le, hlow, hhigh]
    split_ifs <;> omega
  · intro b tail hb hb' hlength htail
    obtain ⟨t, u, rfl⟩ := List.length_eq_two.mp hlength
    obtain ⟨ht, ht'⟩ := htail t (by simp)
    obtain ⟨hu, hu'⟩ := htail u (by simp)
    rw [← UInt8.ofNat_toNat (x := b), ← UInt8.ofNat_toNat (x := t),
      ← UInt8.ofNat_toNat (x := u)]
    exact exists_char_of_four hlo hhi (hlow ▸ hb) (hhigh ▸ hb') ht ht' hu hu'

/-- A byte that starts a character is all of it, or the decoder expects the others.  Any other
byte is invalid at once. -/
lemma lead_cases (b : UInt8) :
    (∃ c, String.utf8EncodeChar c = [b]) ∨ lead {} b = emit {} none ∨
      ∃ need lo hi acc, lead {} b = ⟨.inside need lo hi acc, []⟩ ∧ Expects [b] need lo hi := by
  obtain ⟨n, hn, rfl⟩ : ∃ n < 256, UInt8.ofNat n = b := ⟨b.toNat, b.toNat_lt, UInt8.ofNat_toNat⟩
  have hcases : n < 0x80 ∨ (0x80 ≤ n ∧ n < 0xC2) ∨ (0xC2 ≤ n ∧ n < 0xE0) ∨
      (0xE0 ≤ n ∧ n < 0xF0) ∨ (0xF0 ≤ n ∧ n ≤ 0xF4) ∨ 0xF4 < n := by
    omega
  rcases hcases with h | ⟨h, h'⟩ | ⟨h, h'⟩ | ⟨h, h'⟩ | ⟨h, h'⟩ | h
  · refine Or.inl ⟨Char.ofNat n, ?_⟩
    unfold String.utf8EncodeChar
    dsimp only
    rw [toNat_val_ofNat (Or.inl (by omega)), if_pos (by omega)]
  · rw [lead_ofNat _ hn, if_neg (by omega), if_pos h']
    exact Or.inr (Or.inl rfl)
  · exact Or.inr (Or.inr (exists_expects_of_two h h'))
  · exact Or.inr (Or.inr (exists_expects_of_three h h'))
  · exact Or.inr (Or.inr (exists_expects_of_four h h'))
  · have hlead : lead {} (UInt8.ofNat n) = emit {} none := by
      rw [lead_ofNat _ hn]
      simp only [show ¬n < 0x80 by omega, show ¬n < 0xC2 by omega, show ¬n < 0xE0 by omega,
        show n ≠ 0xE0 by omega, show n ≠ 0xED by omega, show ¬n < 0xF0 by omega,
        show n ≠ 0xF0 by omega, show ¬n < 0xF4 by omega, show n ≠ 0xF4 by omega, if_false]
    exact Or.inr (Or.inl hlead)

/-- What has been decoded stays, whatever follows. -/
lemma exists_decoded_foldl_feed (bytes : List UInt8) (d : Decoder) :
    ∃ more, (bytes.foldl feed d).decoded = more ++ d.decoded := by
  have hbehind := foldl_feed_behind bytes ⟨d.state, []⟩ d.decoded
  exact ⟨_, congrArg Decoder.decoded hbehind⟩

/-- No character starts with bytes that hold an invalid part. -/
lemma not_isInitial {part : List UInt8} (h : none ∈ (part.foldl feed {}).decoded) :
    ¬IsInitial part := by
  rintro ⟨c, rest, hc⟩
  have hchar := foldl_feed_utf8EncodeChar c []
  rw [← hc, List.foldl_append] at hchar
  obtain ⟨more, hmore⟩ := exists_decoded_foldl_feed rest (part.foldl feed ⟨.start, []⟩)
  have hmem := List.mem_append_right more h
  rw [← hmore, hchar] at hmem
  simp at hmem

/-- No character stands in bytes of which nothing has been decoded. -/
lemma not_char_isPrefix {part : List UInt8} (h : (part.foldl feed {}).decoded = []) (c : Char) :
    ¬String.utf8EncodeChar c <+: part := by
  rintro ⟨rest, rfl⟩
  rw [List.foldl_append, foldl_feed_utf8EncodeChar] at h
  obtain ⟨more, hmore⟩ := exists_decoded_foldl_feed rest ⟨.start, [some c]⟩
  simp [hmore] at h

/-- A byte that is not expected starts afresh behind an invalid part. -/
lemma feed_of_not_expected {need acc : ℕ} {lo hi b : UInt8} (h : ¬(lo ≤ b ∧ b ≤ hi)) :
    feed ⟨.inside need lo hi acc, []⟩ b = feed (behind {} [none]) b := by
  simp [feed, emit, behind, h]

end Decoder

/-! ### The first character or invalid part -/

/-- What the decoder holds when it starts afresh comes before the rest. -/
lemma scan_append_of_foldl_feed {part rest : List UInt8} {c : Option Char}
    (h : (part ++ rest).foldl Decoder.feed {} = rest.foldl Decoder.feed (Decoder.behind {} [c])) :
    scan (part ++ rest) = c :: scan rest := by
  rw [scan, h, Decoder.foldl_feed_behind, Decoder.finish_behind]
  rfl

/-- A character is decoded first. -/
lemma scan_char_append (c : Char) (rest : List UInt8) :
    scan (String.utf8EncodeChar c ++ rest) = some c :: scan rest := by
  apply scan_append_of_foldl_feed
  rw [List.foldl_append, Decoder.foldl_feed_utf8EncodeChar]
  rfl

/-- The bytes start with a character, or with an invalid part that the decoder finds. -/
def StartsWithPart (bytes : List UInt8) : Prop :=
  (∃ c, String.utf8EncodeChar c <+: bytes) ∨
    ∃ part rest, bytes = part ++ rest ∧ IsInvalidPart part rest ∧ scan bytes = none :: scan rest

/-- Inside a character, the bytes so far are an invalid part if no character goes on with the
next one. -/
lemma Expects.isInvalidPart {part rest : List UInt8} {need acc : ℕ} {lo hi : UInt8}
    (h : Expects part need lo hi)
    (hread : part.foldl Decoder.feed {} = ⟨.inside need lo hi acc, []⟩) (hne : part ≠ [])
    (hnext : ∀ b ∈ rest.head?, ¬IsInitial (part ++ [b])) : IsInvalidPart part rest := by
  apply IsInvalidPart.of_not_isPrefix hne _ (Or.inr h.isInitial) hnext
  apply Decoder.not_char_isPrefix
  rw [hread]

/-- Inside a character, the next bytes complete it, or the bytes so far are an invalid part. -/
lemma startsWithPart_of_expects {part : List UInt8} {need acc : ℕ} {lo hi : UInt8}
    (hread : part.foldl Decoder.feed {} = ⟨.inside need lo hi acc, []⟩) (hne : part ≠ [])
    (hexpects : Expects part need lo hi) (bytes : List UInt8) :
    StartsWithPart (part ++ bytes) := by
  -- along the bytes that follow, each of which is expected or not
  induction bytes generalizing part need acc lo hi with
  | nil =>
    refine Or.inr ⟨part, [], rfl, hexpects.isInvalidPart hread hne (by simp), ?_⟩
    rw [List.append_nil, scan, hread]
    rfl
  | cons b bytes ih =>
    by_cases hb : lo ≤ b ∧ b ≤ hi
    · cases need with
      | zero =>
        obtain ⟨c, hc⟩ := hexpects.exists_char b [] hb.1 hb.2 rfl (by simp)
        exact Or.inl ⟨c, bytes, by rw [hc]; simp⟩
      | succ need =>
        have hread' : (part ++ [b]).foldl Decoder.feed {} =
            ⟨.inside need 0x80 0xBF (acc * 64 + b.toNat % 64), []⟩ := by
          rw [List.foldl_append, hread]
          simp [Decoder.feed, hb]
        have hbytes : part ++ b :: bytes = part ++ [b] ++ bytes := by simp
        rw [hbytes]
        exact ih hread' (by simp) (hexpects.concat hb.1 hb.2)
    · have hnone : none ∈ ((part ++ [b]).foldl Decoder.feed {}).decoded := by
        obtain ⟨more, hmore⟩ := Decoder.exists_decoded_foldl_feed [b] (Decoder.behind {} [none])
        rw [List.foldl_append, hread, List.foldl_cons, Decoder.feed_of_not_expected hb,
          ← List.foldl_cons, hmore]
        exact List.mem_append_right more (List.mem_singleton_self none)
      refine Or.inr ⟨part, b :: bytes, rfl, hexpects.isInvalidPart hread hne ?_, ?_⟩
      · intro b' hb'
        obtain rfl : b = b' := by simpa using hb'
        exact Decoder.not_isInitial hnone
      · apply scan_append_of_foldl_feed
        rw [List.foldl_append, hread, List.foldl_cons, Decoder.feed_of_not_expected hb,
          List.foldl_cons]

/-- Any bytes start with a character or with an invalid part. -/
lemma startsWithPart {bytes : List UInt8} (h : bytes ≠ []) : StartsWithPart bytes := by
  obtain ⟨b, rest, rfl⟩ := List.exists_cons_of_ne_nil h
  rcases Decoder.lead_cases b with ⟨c, hc⟩ | hlead | ⟨need, lo, hi, acc, hlead, hexpects⟩
  · exact Or.inl ⟨c, rest, by rw [hc]; rfl⟩
  · have hread : [b].foldl Decoder.feed {} = ⟨.start, [none]⟩ := hlead
    have hnot : ¬IsInitial [b] := Decoder.not_isInitial (by rw [hread]; simp)
    refine Or.inr ⟨[b], rest, rfl, .of_not_isPrefix (by simp) ?_ (Or.inl rfl) ?_, ?_⟩
    · rintro c ⟨more, hmore⟩
      rcases List.append_eq_singleton_iff.mp hmore with ⟨hc, -⟩ | ⟨hc, -⟩
      · exact String.utf8EncodeChar_ne_nil hc
      · exact hnot ⟨c, hc ▸ List.prefix_rfl⟩
    · intro b' _ hinitial
      exact hnot (hinitial.of_isPrefix (List.prefix_append _ _))
    · rw [← List.singleton_append]
      apply scan_append_of_foldl_feed
      rw [List.foldl_append, hread]
      rfl
  · have hread : [b].foldl Decoder.feed {} = ⟨.inside need lo hi acc, []⟩ := hlead
    exact startsWithPart_of_expects hread (by simp) hexpects rest

/-- An invalid part is found first. -/
lemma scan_append_of_isInvalidPart {part rest : List UInt8} (h : IsInvalidPart part rest) :
    scan (part ++ rest) = none :: scan rest := by
  have hne : part ++ rest ≠ [] := List.append_ne_nil_of_left_ne_nil h.ne_nil rest
  rcases startsWithPart hne with ⟨c, hc⟩ | ⟨part', rest', heq, hpart', hscan⟩
  · exact absurd hc (h.not_char c)
  · obtain ⟨rfl, rfl⟩ := h.unique hpart' heq
    exact hscan

/-! ### All of the bytes -/

lemma lossy_char_append (c : Char) (rest : List UInt8) :
    lossy (String.utf8EncodeChar c ++ rest) = c :: lossy rest := by
  rw [lossy, scan_char_append, List.map_cons, Option.getD_some, lossy]

lemma lossy_append_of_isInvalidPart {part rest : List UInt8} (h : IsInvalidPart part rest) :
    lossy (part ++ rest) = replacement :: lossy rest := by
  rw [lossy, scan_append_of_isInvalidPart h, List.map_cons, Option.getD_none, lossy]

/-- The decoder replaces just the invalid parts. -/
lemma decodes_lossy (bytes : List UInt8) : Decodes bytes (lossy bytes) := by
  by_cases hne : bytes = []
  · rw [hne]
    exact .nil
  rcases startsWithPart hne with ⟨c, rest, rfl⟩ | ⟨part, rest, rfl, hpart, -⟩
  · have hlt : rest.length < (String.utf8EncodeChar c ++ rest).length := by
      have hpos := List.length_pos_iff.mpr (String.utf8EncodeChar_ne_nil (c := c))
      rw [List.length_append]
      omega
    rw [lossy_char_append]
    exact .char c (decodes_lossy rest)
  · have hlt : rest.length < (part ++ rest).length := by
      have hpos := List.length_pos_iff.mpr hpart.ne_nil
      rw [List.length_append]
      omega
    rw [lossy_append_of_isInvalidPart hpart]
    exact .replaced hpart (decodes_lossy rest)
termination_by bytes.length

/-- There is one way to decode bytes, and it is that of the decoder. -/
theorem decodes_iff {bytes : List UInt8} {cs : List Char} :
    Decodes bytes cs ↔ cs = lossy bytes := by
  constructor
  · intro h
    induction h with
    | nil => rfl
    | char c _ ih => rw [lossy_char_append, ih]
    | replaced hpart _ ih => rw [lossy_append_of_isInvalidPart hpart, ih]
  · rintro rfl
    exact decodes_lossy bytes

end TinyLisp.Utf8
