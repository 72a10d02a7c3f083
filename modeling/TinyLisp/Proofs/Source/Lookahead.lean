import TinyLisp.Proofs.Source.Advance

/-!
# Looking ahead

Looking at a character means to make an attempt and to keep its outcome, until it is asked for.
A `Lookahead` is a source with a place for one such outcome, which may be that there was no
character.  Looking keeps the outcome there, and taking removes it, so that a source which goes
on behind a failure is read on only if the failure is taken (`next`), and not if it is looked at
(`peek`, `nextIf`).

The operations on sources have no such place.  To them, a failure that has been looked at is the
end of the source.  The view of a lookahead is the source in that sense, and each operation is
found again in it (`view_peek`, `view_next`, `readWhile_eq`, `takeThrough_eq`, `literal_eq`).
-/

namespace TinyLisp

namespace Source

/-! ### Runs of characters, one at a time -/

section

variable {p : Char → Bool} {s : Source} {c : Char}

/-- A character of the class comes before the rest of the run. -/
lemma span_of_front? (h : s.front? = some c) (hp : p c = true) :
    s.span p = (c :: (s.skip.span p).1, (s.skip.span p).2) := by
  obtain ⟨pulls, n⟩ := s
  rcases pulls with _ | ⟨⟨d, k⟩ | k, pulls⟩
  · simp [front?] at h
  · obtain rfl : d = c := by simpa [front?, Pull.char?] using h
    simp [span, skip, Pull.holds, Pull.char?, Pull.cost, hp, Nat.add_assoc]
  · simp [front?, Pull.char?] at h

/-- Anything else ends the run, and is looked at. -/
lemma span_of_not_front? (h : ∀ c, s.front? = some c → p c = false) :
    s.span p = ([], s.settle) := by
  obtain ⟨pulls, n⟩ := s
  rcases pulls with _ | ⟨⟨d, k⟩ | k, pulls⟩
  · rfl
  · have hd : p d = false := h d rfl
    simp [span, Pull.holds, Pull.total, hd]
  · rfl

/-- A character of the class is taken before the rest of the run. -/
lemma through_of_front? (h : s.front? = some c) (hp : p c = true) :
    s.through p = (c :: (s.skip.through p).1, (s.skip.through p).2) := by
  obtain ⟨pulls, n⟩ := s
  rcases pulls with _ | ⟨⟨d, k⟩ | k, pulls⟩
  · simp [front?] at h
  · obtain rfl : d = c := by simpa [front?, Pull.char?] using h
    simp [through, skip, Pull.holds, Pull.char?, Pull.cost, hp, Nat.add_assoc]
  · simp [front?, Pull.char?] at h

/-- Anything else ends the run, and is taken with it. -/
lemma through_of_not_front? (h : ∀ c, s.front? = some c → p c = false) :
    s.through p = ([], s.skip) := by
  obtain ⟨pulls, n⟩ := s
  rcases pulls with _ | ⟨⟨d, k⟩ | k, pulls⟩
  · rfl
  · have hd : p d = false := h d rfl
    simp [through, Pull.holds, Pull.total, hd]
  · rfl

/-! ### String literals, one attempt at a time -/

/-- A missing character ends a literal. -/
lemma literal_of_front?_eq_none (h : s.front? = none) (text : List Char) :
    literal text s.consumed s.pulls =
      { text := text.reverse, closed := false, rest := s.skip } := by
  obtain ⟨pulls, n⟩ := s
  rcases pulls with _ | ⟨⟨d, k⟩ | k, pulls⟩
  · rfl
  · simp [front?, Pull.char?] at h
  · rfl

/-- A double quote closes a literal. -/
lemma literal_of_doubleQuote (h : s.front? = some '\x22') (text : List Char) :
    literal text s.consumed s.pulls =
      { text := ('\x22' :: text).reverse, closed := true, rest := s.skip } := by
  obtain ⟨pulls, n⟩ := s
  rcases pulls with _ | ⟨⟨d, k⟩ | k, pulls⟩
  · simp [front?] at h
  · obtain rfl : d = '\x22' := by simpa [front?, Pull.char?] using h
    rw [literal.eq_def]
    simp [skip, Pull.cost]
  · simp [front?, Pull.char?] at h

/-- A backslash is passed over, and the literal goes on behind the next attempt. -/
lemma literal_of_backslash (h : s.front? = some '\\') (text : List Char) :
    literal text s.consumed s.pulls =
      literal (s.skip.front?.toList ++ text) s.skip.skip.consumed s.skip.skip.pulls := by
  obtain ⟨pulls, n⟩ := s
  rcases pulls with _ | ⟨⟨d, k⟩ | k, pulls⟩
  · simp [front?] at h
  · obtain rfl : d = '\\' := by simpa [front?, Pull.char?] using h
    rcases pulls with _ | ⟨⟨e, j⟩ | j, pulls⟩ <;> rfl
  · simp [front?, Pull.char?] at h

/-- Any other character is part of the literal. -/
lemma literal_of_front? (h : s.front? = some c) (hquote : c ≠ '\x22') (hslash : c ≠ '\\')
    (text : List Char) :
    literal text s.consumed s.pulls = literal (c :: text) s.skip.consumed s.skip.pulls := by
  obtain ⟨pulls, n⟩ := s
  rcases pulls with _ | ⟨⟨d, k⟩ | k, pulls⟩
  · simp [front?] at h
  · obtain rfl : d = c := by simpa [front?, Pull.char?] using h
    rw [literal.eq_def]
    simp [hquote, hslash, skip, Pull.cost]
  · simp [front?, Pull.char?] at h

end

end Source

/-- A source, and the outcome of the last attempt if it has been looked at but not taken. -/
structure Lookahead where
  source : Source
  seen : Option (Option Char) := none

namespace Lookahead

/-- Takes the outcome that has been looked at, or that of a further attempt. -/
def next (l : Lookahead) : Option Char × Lookahead :=
  match l.seen with
  | some c => (c, { l with seen := none })
  | none => (l.source.front?, { source := l.source.skip })

/-- Looks at an outcome and keeps it. -/
def peek (l : Lookahead) : Option Char × Lookahead :=
  (l.next.1, { l.next.2 with seen := some l.next.1 })

/-- Takes a character of the given class.  Anything else is only looked at. -/
def nextIf (p : Char → Bool) (l : Lookahead) : Option Char × Lookahead :=
  if l.next.1.any p then l.next else (none, l.peek.2)

/-- The source, if what has been looked at is still to be taken, and if there is nothing
behind a failure that has been looked at. -/
def view (l : Lookahead) : Source :=
  match l.seen with
  | none => l.source
  | some (some c) => { l.source with pulls := .char c 0 :: l.source.pulls }
  | some none => { l.source with pulls := [] }

lemma consumed_view (l : Lookahead) : l.view.consumed = l.source.consumed := by
  obtain ⟨s, seen⟩ := l
  rcases seen with _ | _ | c <;> rfl

/-! ### One attempt -/

/-- What is taken next stands at the front. -/
lemma next_fst (l : Lookahead) : l.next.1 = l.view.front? := by
  obtain ⟨s, seen⟩ := l
  rcases seen with _ | _ | c <;> rfl

/-- Nothing is kept when something has been taken. -/
lemma seen_next (l : Lookahead) : l.next.2.seen = none := by
  obtain ⟨s, seen⟩ := l
  cases seen <;> rfl

/-- Taking passes over an attempt, unless the attempt has been looked at and failed. -/
lemma view_next {l : Lookahead} (h : l.seen ≠ some none) : l.next.2.view = l.view.skip := by
  obtain ⟨s, seen⟩ := l
  rcases seen with _ | _ | c
  · rfl
  · exact absurd rfl h
  · rfl

/-- A character that is taken has been at the front. -/
lemma view_of_next {l l' : Lookahead} {c : Char} (h : l.next = (some c, l')) :
    l.view.front? = some c ∧ l'.view = l.view.skip ∧ l'.seen = none := by
  have hseen : l.seen ≠ some none := by
    intro hseen
    simp [next, hseen] at h
  have hview := view_next hseen
  have hnone := seen_next l
  rw [h] at hview hnone
  exact ⟨by rw [← next_fst, h], hview, hnone⟩

/-- It leaves fewer attempts. -/
lemma length_lt_of_next {l l' : Lookahead} {c : Char} (h : l.next = (some c, l')) :
    l'.view.pulls.length < l.view.pulls.length := by
  obtain ⟨hfront, hview, -⟩ := view_of_next h
  rw [hview]
  exact Source.length_skip_lt (Source.pulls_ne_nil_of_front? hfront)

/-- Looking at an outcome settles the source. -/
lemma view_peek (l : Lookahead) : l.peek.2.view = l.view.settle := by
  obtain ⟨⟨pulls, n⟩, seen⟩ := l
  rcases seen with _ | _ | c
  · rcases pulls with _ | ⟨_ | _, pulls⟩ <;> rfl
  · rfl
  · rfl

lemma nextIf_eq_some {p : Char → Bool} {l l' : Lookahead} {c : Char}
    (h : l.nextIf p = (some c, l')) : l.next = (some c, l') ∧ p c = true := by
  unfold nextIf at h
  split_ifs at h with hp
  · rw [h] at hp
    exact ⟨h, hp⟩
  · simp at h

lemma nextIf_eq_none {p : Char → Bool} {l l' : Lookahead} (h : l.nextIf p = (none, l')) :
    l' = l.peek.2 ∧ ∀ c, l.view.front? = some c → p c = false := by
  rw [← next_fst]
  unfold nextIf at h
  split_ifs at h with hp
  · rw [h] at hp
    simp at hp
  · refine ⟨(congrArg Prod.snd h).symm, fun c hc => ?_⟩
    simpa [hc] using hp

/-! ### Runs of characters -/

/-- Takes characters of a class, looking at each before it is taken. -/
def readWhile (p : Char → Bool) (l : Lookahead) : List Char × Lookahead :=
  match _h : l.nextIf p with
  | (none, l') => ([], l')
  | (some c, l') => (c :: (readWhile p l').1, (readWhile p l').2)
termination_by l.view.pulls.length
decreasing_by
  all_goals exact length_lt_of_next (nextIf_eq_some _h).1

/-- Takes characters of a class, and what follows them. -/
def takeThrough (p : Char → Bool) (l : Lookahead) : List Char × Lookahead :=
  match _h : l.next with
  | (none, l') => ([], l')
  | (some c, l') =>
    if p c then (c :: (takeThrough p l').1, (takeThrough p l').2) else ([], l')
termination_by l.view.pulls.length
decreasing_by
  all_goals exact length_lt_of_next _h

/-- Takes characters up to a double quote that no backslash escapes; `text` holds those of the
literal so far, last first. -/
def literal (text : List Char) (l : Lookahead) : List Char × Bool × Lookahead :=
  match _h : l.next with
  | (none, l') => (text.reverse, false, l')
  | (some c, l') =>
    if c = '\x22' then ((c :: text).reverse, true, l')
    else if c = '\\' then literal (l'.next.1.toList ++ text) l'.next.2
    else literal (c :: text) l'
termination_by l.view.pulls.length
decreasing_by
  · have hseen : l'.seen ≠ some none := by simp [(view_of_next _h).2.2]
    rw [view_next hseen]
    exact Nat.lt_of_le_of_lt (Source.length_skip_le l'.view) (length_lt_of_next _h)
  · exact length_lt_of_next _h

/-- Looking at each character of a run before it is taken gives the run of the source. -/
lemma readWhile_eq (p : Char → Bool) (l : Lookahead) :
    (l.readWhile p).1 = (l.view.span p).1 ∧ (l.readWhile p).2.view = (l.view.span p).2 := by
  fun_induction readWhile p l with
  | case1 l l' h =>
    obtain ⟨rfl, hnot⟩ := nextIf_eq_none h
    rw [Source.span_of_not_front? hnot]
    exact ⟨rfl, view_peek l⟩
  | case2 l c l' h ih =>
    obtain ⟨hnext, hp⟩ := nextIf_eq_some h
    obtain ⟨hfront, hview, -⟩ := view_of_next hnext
    rw [Source.span_of_front? hfront hp, ← hview, ih.1]
    exact ⟨rfl, ih.2⟩

/-- So does taking the characters unseen, as long as no failure has been looked at. -/
lemma takeThrough_eq (p : Char → Bool) {l : Lookahead} (h : l.seen ≠ some none) :
    (l.takeThrough p).1 = (l.view.through p).1 ∧
      (l.takeThrough p).2.view = (l.view.through p).2 := by
  have hview := view_next h
  fun_induction takeThrough p l with
  | case1 l l' hnext =>
    rw [hnext] at hview
    have hfront : l.view.front? = none := by rw [← next_fst, hnext]
    rw [Source.through_of_not_front? (by simp [hfront])]
    exact ⟨rfl, hview⟩
  | case2 l c l' hnext hp ih =>
    obtain ⟨hfront, hview, hseen⟩ := view_of_next hnext
    have hseen' : l'.seen ≠ some none := by simp [hseen]
    obtain ⟨hchars, hrest⟩ := ih hseen' (view_next hseen')
    rw [Source.through_of_front? hfront hp, ← hview, hchars]
    exact ⟨rfl, hrest⟩
  | case3 l c l' hnext hp =>
    obtain ⟨hfront, hview, -⟩ := view_of_next hnext
    rw [Source.through_of_not_front? (by simpa [hfront] using hp)]
    exact ⟨rfl, hview⟩

/-- So it is with a literal. -/
lemma literal_eq (text : List Char) {l : Lookahead} (h : l.seen = none) :
    (l.literal text).1 = (Source.literal text l.view.consumed l.view.pulls).text ∧
      (l.literal text).2.1 = (Source.literal text l.view.consumed l.view.pulls).closed ∧
      (l.literal text).2.2.view = (Source.literal text l.view.consumed l.view.pulls).rest := by
  have hview : l.next.2.view = l.view.skip := view_next (by simp [h])
  fun_induction literal text l with
  | case1 text l l' hnext =>
    rw [hnext] at hview
    have hfront : l.view.front? = none := by rw [← next_fst, hnext]
    rw [Source.literal_of_front?_eq_none hfront]
    exact ⟨rfl, rfl, hview⟩
  | case2 text l l' hnext =>
    obtain ⟨hfront, hview, -⟩ := view_of_next hnext
    rw [Source.literal_of_doubleQuote hfront]
    exact ⟨rfl, rfl, hview⟩
  | case3 text l l' hnext hquote ih =>
    obtain ⟨hfront, hview, hseen⟩ := view_of_next hnext
    have hnext' : l'.next.2.view = l'.view.skip := view_next (by simp [hseen])
    rw [Source.literal_of_backslash hfront, ← hview, ← next_fst, ← hnext']
    exact ih (seen_next l') (view_next (by simp [seen_next]))
  | case4 text l c l' hnext hquote hslash ih =>
    obtain ⟨hfront, hview, hseen⟩ := view_of_next hnext
    rw [Source.literal_of_front? hfront hquote hslash, ← hview]
    exact ih hseen (view_next (by simp [hseen]))

end Lookahead

end TinyLisp
