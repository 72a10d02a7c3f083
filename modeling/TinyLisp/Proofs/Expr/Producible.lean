import TinyLisp.Proofs.Expr.Language
import TinyLisp.Proofs.Expr.RoundTrip
import TinyLisp.Proofs.Token.Continuation

/-!
# The trees that a parser can produce

Not every tree is the first expression of some source.  A name has to be readable as a
name, a minus sign before a positive number would be taken for its sign, and a tree can
be too deep.  Nothing else stands in the way (`exists_parseExpr_iff`).  In particular a
text may hold any characters, because each of them can be escaped, and a zero may stand
behind a minus sign, because it can be written `-0`.

That nothing else is produced is an invariant of the frames that the automaton has open
(`Pushdown.Legible`).  That all the other trees are produced is shown by writing a
source for each of them (`Expr.Written`).
-/

namespace TinyLisp

namespace Expr

/-- A tree whose names can be read and whose items do not run into each other. -/
structure IsLegible (e : Expr) : Prop where
  names : ∀ name, .atom name ∈ e.nodes → IsName name
  signs : ∀ x ∈ e.nodes, x.items.IsChain MayPrecede

/-- A legible tree that is not too deep. -/
structure Producible (e : Expr) : Prop extends IsLegible e where
  levels_le : e.levels ≤ 256

/-! ### Legible trees -/

/-- What is no number may follow anything. -/
lemma mayPrecede_of_ne (x : Expr) {y : Expr} (h : ∀ n, y ≠ .number n) : MayPrecede x y :=
  fun _ n hn => absurd hn (h n)

/-- A tree is legible if its root is, and its items are. -/
lemma isLegible_of_items {e : Expr} (hname : ∀ name, e = .atom name → IsName name)
    (hchain : e.items.IsChain MayPrecede) (hitems : ∀ x ∈ e.items, x.IsLegible) :
    e.IsLegible := by
  constructor
  · intro name h
    rw [nodes_eq, List.mem_cons] at h
    rcases h with h | h
    · exact hname name h.symm
    · obtain ⟨x, hx, hmem⟩ := mem_nodesAll.mp h
      exact (hitems x hx).names name hmem
  · intro y h
    rw [nodes_eq, List.mem_cons] at h
    rcases h with rfl | h
    · exact hchain
    · obtain ⟨x, hx, hmem⟩ := mem_nodesAll.mp h
      exact (hitems x hx).signs y hmem

/-- The items of a legible tree are legible. -/
lemma IsLegible.of_mem_items {e x : Expr} (h : e.IsLegible) (hx : x ∈ e.items) : x.IsLegible := by
  have hsubset := nodes_subset_of_mem_items hx
  constructor
  · exact fun name hname => h.names name (hsubset hname)
  · exact fun y hy => h.signs y (hsubset hy)

/-- Quoting keeps a tree legible, and goes down no further than the quotation mark. -/
lemma IsLegible.quote {e q : Expr} (h : e.IsLegible) (hq : e.quote? = some q) :
    q.IsLegible ∧ q.levels ≤ e.levels + 1 ∧ ∀ n, q ≠ .number n := by
  have hchain := h.signs e (mem_nodes_self e)
  cases e with
  | list items =>
    obtain rfl := Option.some.inj hq
    refine ⟨isLegible_of_items (by simp) hchain fun x hx => h.of_mem_items hx, ?_, by simp⟩
    simp only [levels]
    omega
  | quoted items =>
    obtain rfl := Option.some.inj hq
    exact ⟨h, Nat.le_succ _, by simp⟩
  | _ => simp [quote?] at hq

end Expr

namespace Token

/-- A token that can be a name is one that is read as it is written. -/
structure IsNamed (t : Token) : Prop where
  atom : t.kind = .atom → Expr.IsName t.text ∧ t.text ≠ "-"
  minus : t.kind = .minus → t.text = "-"

/-- Tokens that are spelled are read as they are written. -/
lemma Spelling.isNamed {t : Token} {r rest : List Char} (h : Spelling t r rest) : t.IsNamed := by
  constructor
  · intro hkind
    cases h with
    | @atom c cs _ hc hcs hrest =>
      have hminus : String.ofList (c :: cs) ≠ "-" := by
        intro heq
        have hlist := congrArg String.toList heq
        rw [String.toList_ofList] at hlist
        obtain ⟨rfl, -⟩ := List.cons.inj (show c :: cs = ['-'] from hlist)
        exact hc (Or.inr (Or.inl rfl))
      refine ⟨Or.inr ⟨by simp [← String.toList_inj], ?_, ?_⟩, hminus⟩
      · intro d hd
        rw [String.toList_ofList] at hd
        obtain rfl : c = d := by simpa using hd
        exact hc
      · rw [String.toList_ofList]
        exact hcs
    | _ => simp at hkind
  · cases h <;> simp

end Token

namespace Pushdown

open TinyLisp.Expr

/-! ### What the automaton has open -/

/-- The open frames can become part of a producible tree: the items so far are legible and
do not run into each other, and there is room for the levels of what is open. -/
inductive Legible : List Frame → Prop
  | nil : Legible []
  | list {items : List Expr} {outer : List Frame} (hitems : ∀ x ∈ items, x.IsLegible)
      (hchain : items.IsChain (flip MayPrecede))
      (hlevels : outer.length + 1 + levelsAll items ≤ depthLimit) (houter : Legible outer) :
      Legible (.list items :: outer)
  | quote {outer : List Frame} (houter : Legible outer) : Legible (.quote :: outer)

/-- The expression may be the next item of what is open. -/
def Accepts (frames : List Frame) (e : Expr) : Prop :=
  ∀ items outer, frames = .list items :: outer → ∀ x ∈ items.head?, MayPrecede x e

/-- What a step leads to is legible and not too deep. -/
def Turn.Legible : Turn → Prop
  | .stop (.ok e) _ => e.IsLegible ∧ e.levels ≤ depthLimit
  | .stop (.error _) _ => True
  | .go frames _ => Pushdown.Legible frames

/-- Handing over an expression keeps everything legible. -/
lemma Legible.deliver {frames : List Frame} (h : Legible frames) {e : Expr} (he : e.IsLegible)
    (hlevels : frames.length + e.levels ≤ depthLimit) (haccepts : Accepts frames e)
    (rest : List Token) : (deliver e rest frames).Legible := by
  induction h generalizing e with
  | nil => exact ⟨he, by simpa using hlevels⟩
  | @list items outer hitems hchain hroom houter _ =>
    refine .list (List.forall_mem_cons.mpr ⟨he, hitems⟩) ?_ ?_ houter
    · exact List.isChain_cons.mpr ⟨haccepts items outer rfl, hchain⟩
    · rw [List.length_cons] at hlevels
      rw [levelsAll]
      omega
  | @quote outer _ ih =>
    unfold Pushdown.deliver
    cases hquote : e.quote? with
    | none => trivial
    | some q =>
      obtain ⟨hlegible, hle, hnumber⟩ := he.quote hquote
      rw [List.length_cons] at hlevels
      refine ih hlegible ?_ fun _ _ _ x _ => mayPrecede_of_ne x hnumber
      omega

/-- A leaf is legible and has one level.  If it is a minus sign, no number follows. -/
lemma Leaf.isLegible {used rest : List Token} {e : Expr} (h : Leaf used e rest)
    (hnamed : ∀ t ∈ used, t.IsNamed) :
    e.IsLegible ∧ e.levels = 1 ∧ (e = .atom "-" → (next rest).kind ≠ .number) := by
  cases h with
  | @atom t _ ht =>
    obtain ⟨hname, hminus⟩ := (hnamed t List.mem_cons_self).atom ht
    refine ⟨isLegible_of_items ?_ .nil (by simp [items]), rfl, fun heq => ?_⟩
    · rintro name heq
      rwa [← Expr.atom.inj heq]
    · exact absurd (Expr.atom.inj heq) hminus
  | @minus m _ hm hrest =>
    have htext := (hnamed m List.mem_cons_self).minus hm
    refine ⟨isLegible_of_items ?_ .nil (by simp [items]), rfl, fun _ => hrest⟩
    rintro name heq
    exact Or.inl ((Expr.atom.inj heq).symm.trans htext)
  | number _ _ => exact ⟨isLegible_of_items (by simp) .nil (by simp [items]), rfl, by simp⟩
  | negative _ _ _ => exact ⟨isLegible_of_items (by simp) .nil (by simp [items]), rfl, by simp⟩
  | string _ => exact ⟨isLegible_of_items (by simp) .nil (by simp [items]), rfl, by simp⟩

/-- A number that does not start with a number token starts with a minus sign. -/
lemma Leaf.number_nonpos {used rest : List Token} {n : Int64} (h : Leaf used (.number n) rest)
    (hnext : (next (used ++ rest)).kind ≠ .number) : n.toInt ≤ 0 := by
  cases h with
  | number ht _ => exact absurd ht hnext
  | negative _ _ hn =>
    have hvalue := ((Decimal.read?_eq_some_iff _ _ _).mp hn).2
    rw [hvalue, Decimal.signed, if_pos rfl]
    omega

/-- The invariant of a run: what is open is legible, and behind a minus sign that has
become an item no number is to come. -/
structure Sound (frames : List Frame) (ts : List Token) : Prop where
  legible : Legible frames
  sign : ∀ items outer, frames = .list (.atom "-" :: items) :: outer →
    (next ts).kind ≠ .number

/-- A leaf may be the next item of what is open. -/
lemma Sound.accepts {frames : List Frame} {used rest : List Token} {e : Expr}
    (h : Sound frames (used ++ rest)) (hleaf : Leaf used e rest) : Accepts frames e := by
  rintro items outer rfl x hx rfl n rfl
  obtain ⟨items, rfl⟩ := List.head?_eq_some_iff.mp (Option.mem_def.mp hx)
  exact hleaf.number_nonpos (h.sign items outer rfl)

/-- An expression that is handed over becomes a minus sign only if it is one. -/
lemma eq_minus_of_deliver {e : Expr} {rest rest' : List Token} {frames outer : List Frame}
    {items : List Expr}
    (h : deliver e rest frames = .go (.list (.atom "-" :: items) :: outer) rest') :
    e = .atom "-" := by
  induction frames generalizing e with
  | nil => simp [deliver] at h
  | cons frame frames ih =>
    cases frame with
    | list _ =>
      obtain ⟨hframes, -⟩ := Turn.go.inj h
      obtain ⟨hlist, -⟩ := List.cons.inj hframes
      exact (List.cons.inj (Frame.list.inj hlist)).1
    | quote =>
      unfold deliver at h
      cases hquote : e.quote? with
      | none => simp [hquote] at h
      | some q =>
        rw [hquote] at h
        have hq := ih h
        subst hq
        cases e <;> simp [quote?] at hquote

/-- A step keeps the invariant, and an expression that it completes is legible and not
too deep. -/
lemma Sound.moves {frames : List Frame} {ts : List Token} {turn : Turn}
    (h : Sound frames ts) (hmoves : Moves frames ts turn) (hnamed : ∀ t ∈ ts, t.IsNamed) :
    turn.Legible ∧ ∀ frames' rest, turn = .go frames' rest → Sound frames' rest := by
  have hsound : turn.Legible → (∀ items outer, turn.frames = .list (.atom "-" :: items) :: outer →
      (next turn.rest).kind ≠ .number) →
      turn.Legible ∧ ∀ frames' rest, turn = .go frames' rest → Sound frames' rest := by
    intro hlegible hsign
    refine ⟨hlegible, ?_⟩
    rintro frames' rest rfl
    exact ⟨hlegible, hsign⟩
  cases hmoves with
  | @leaf _ used rest e hleaf hdepth =>
    obtain ⟨hlegible, hlevels, hminus⟩ :=
      hleaf.isLegible fun t ht => hnamed t (List.mem_append_left _ ht)
    refine hsound (h.legible.deliver hlegible ?_ (h.accepts hleaf) rest) ?_
    · rw [hlevels]
      exact hdepth
    · rw [rest_deliver]
      intro items outer hframes
      cases hturn : deliver e rest frames with
      | stop outcome rest' => simp [hturn, Turn.frames] at hframes
      | go frames' rest' =>
        rw [hturn] at hframes
        obtain rfl : frames' = .list (.atom "-" :: items) :: outer := hframes
        exact hminus (eq_minus_of_deliver hturn)
  | lparen ht hdepth =>
    refine hsound (.list (by simp) .nil ?_ h.legible) (by simp [Turn.frames])
    rw [levelsAll, Nat.add_zero]
    exact hdepth
  | quote ht hdepth => exact hsound (.quote h.legible) (by simp [Turn.frames])
  | @rparen items outer t rest ht =>
    have hnumber : ∀ n, Expr.list items.reverse ≠ .number n := by simp
    cases h.legible with
    | list hitems hchain hlevels houter =>
      have hlegible : (Expr.list items.reverse).IsLegible := by
        refine isLegible_of_items (by simp) ?_ fun x hx => hitems x (by simpa [Expr.items] using hx)
        exact List.isChain_reverse.mpr hchain
      have hroom : outer.length + (Expr.list items.reverse).levels ≤ depthLimit := by
        rw [levels]
        have hle : levelsAll items.reverse ≤ levelsAll items :=
          levelsAll_le fun x hx => levels_le_levelsAll (List.mem_reverse.mp hx)
        omega
      refine hsound (houter.deliver hlegible hroom
        (fun _ _ _ x _ => mayPrecede_of_ne x hnumber) rest) ?_
      intro items' outer' hframes
      cases hturn : deliver (.list items.reverse) rest outer with
      | stop outcome rest' => simp [hturn, Turn.frames] at hframes
      | go frames' rest' =>
        rw [hturn] at hframes
        obtain rfl : frames' = .list (.atom "-" :: items') :: outer' := hframes
        exact absurd (eq_minus_of_deliver hturn) (by simp)

/-- An expression that is read is legible and not too deep. -/
theorem Sound.expression {frames : List Frame} {ts rest : List Token} {e : Expr}
    (h : Sound frames ts) (hnamed : ∀ t ∈ ts, t.IsNamed)
    (hexpr : Pushdown.expression frames ts = (.ok e, rest)) :
    e.IsLegible ∧ e.levels ≤ depthLimit := by
  revert h hnamed
  refine expression_induction (motive := fun frames ts e _ => Sound frames ts →
    (∀ t ∈ ts, t.IsNamed) → e.IsLegible ∧ e.levels ≤ depthLimit) ?_ ?_ hexpr
  · intro frames ts e rest hmoves h hnamed
    exact (h.moves hmoves hnamed).1
  · intro frames frames' ts ts' e rest hmoves ih h hnamed
    refine ih ((h.moves hmoves hnamed).2 frames' ts' rfl) fun t ht => hnamed t ?_
    obtain ⟨u, us, hts⟩ := hmoves.exists_used
    rw [hts]
    exact List.mem_append_right _ ht

end Pushdown

namespace Token

/-! ### Sources of trees -/

/-- The characters are read as the tokens, if something follows that ends a name. -/
def Reads (cs : List Char) (us : List Token) : Prop :=
  ∀ tail ts, (∀ c ∈ tail.head?, c ∈ delimiters) → Lexes tail ts → Lexes (cs ++ tail) (us ++ ts)

lemma reads_nil : Reads [] [] :=
  fun _ _ _ hts => hts

/-- A piece that spells a token before every delimiter is read as it. -/
lemma reads_of_spelling {r : List Char} {t : Token}
    (h : ∀ rest : List Char, (∀ c ∈ rest.head?, c ∈ delimiters) → Spelling t r rest) :
    Reads r [t] :=
  fun tail _ htail hts => .spelled (h tail htail) hts

/-- A piece may have a token in front that needs no delimiter. -/
lemma Reads.cons {c : Char} {cs : List Char} {t : Token} {us : List Token}
    (ht : ∀ rest, Spelling t [c] rest) (h : Reads cs us) : Reads (c :: cs) (t :: us) := by
  intro tail ts htail hts
  have hfirst : Lexes ([c] ++ (cs ++ tail)) (t :: (us ++ ts)) :=
    .spelled (ht (cs ++ tail)) (h tail ts htail hts)
  exact hfirst

/-- Pieces are put together with a space between them. -/
lemma Reads.append {cs ds : List Char} {us vs : List Token} (hcs : Reads cs us)
    (hds : Reads ds vs) : Reads (cs ++ ' ' :: ds) (us ++ vs) := by
  intro tail ts htail hts
  have hspace : Lexes ([' '] ++ (ds ++ tail)) (vs ++ ts) :=
    (hds tail ts htail hts).blanks_append (by simp [blanks])
  simpa using hcs _ _ (by simp [delimiters]) hspace

/-- A piece can be put in parentheses. -/
lemma Reads.parenthesized {cs : List Char} {us : List Token} (h : Reads cs us) :
    Reads ('(' :: cs ++ [')'])
      ({ kind := .lparen, text := "(" } :: us ++ [{ kind := .rparen, text := ")" }]) := by
  intro tail ts htail hts
  have hclose : Lexes ([')'] ++ tail) ({ kind := .rparen, text := ")" } :: ts) :=
    .spelled .rparen hts
  have hinside := h _ _ (by simp [delimiters]) hclose
  simpa using Lexes.spelled Spelling.lparen hinside

/-- Every text can be written as a string literal, with each character escaped. -/
lemma encodes_flatMap (s : List Char) : Encodes (s.flatMap fun c => ['\\', c]) s := by
  induction s with
  | nil => exact .nil
  | cons c s ih => exact .escaped ih

end Token

namespace Expr

open Token Pushdown

/-- The characters are a source of the expressions, if no number follows.  They start with
a number only if the first expression is a positive one. -/
def Written (cs : List Char) (es : List Expr) : Prop :=
  ∃ us, Reads cs us ∧ ∀ rest, (next rest).kind ≠ .number → Spells us es rest ∧
    ((∀ n, es.head? = some (.number n) → n.toInt ≤ 0) → (next (us ++ rest)).kind ≠ .number)

lemma written_nil : Written [] [] :=
  ⟨[], reads_nil, fun _ hrest => ⟨.nil, fun _ => hrest⟩⟩

/-- A source of an expression is put before a source of others. -/
lemma Written.cons {cs ds : List Char} {used : List Token} {e : Expr} {es : List Expr}
    (hes : Written ds es) (hchain : (e :: es).IsChain MayPrecede) (hcs : Reads cs used)
    (hfirst : (∀ n, e = .number n → n.toInt ≤ 0) → ∀ ts, (next (used ++ ts)).kind ≠ .number)
    (hspells : ∀ us rest, (e = .atom "-" → (next (us ++ rest)).kind ≠ .number) →
      Spells us es rest → Spells (used ++ us) (e :: es) rest) :
    Written (cs ++ ' ' :: ds) (e :: es) := by
  obtain ⟨us, hds, hus⟩ := hes
  refine ⟨used ++ us, hcs.append hds, fun rest hrest => ?_⟩
  obtain ⟨hspelled, hnext⟩ := hus rest hrest
  refine ⟨hspells us rest (fun hminus => hnext fun n hn => ?_) hspelled, fun hle => ?_⟩
  · exact (List.isChain_cons.mp hchain).1 _ (Option.mem_def.mpr hn) hminus n rfl
  · rw [List.append_assoc]
    exact hfirst (fun n hn => hle n (by rw [hn]; rfl)) _

/-- A name is read as its token. -/
lemma reads_name {name : String} (h : IsName name) :
    Reads name.toList (tokens (.atom name)) := by
  rw [tokens]
  split
  · next hminus =>
    rw [hminus]
    exact reads_nil.cons fun rest => .minus
  · next hminus => exact reads_of_spelling fun rest hrest => spelling_name h hminus hrest

/-- Every number has a source.  It starts with a minus sign unless the number is
positive. -/
lemma exists_reads_number (n : Int64) :
    ∃ cs used, Reads cs used ∧ (∀ ts, Leaf used (.number n) ts) ∧
      (n.toInt ≤ 0 → ∀ ts, (next (used ++ ts)).kind ≠ .number) := by
  have hdigits := reads_of_spelling fun rest hrest => spelling_digits n.toInt.natAbs hrest
  by_cases hpos : 0 < n.toInt
  · have hread := Decimal.read?_toDigits n
    rw [decide_eq_false (by omega)] at hread
    exact ⟨_, _, hdigits, fun ts => .number rfl hread, fun hle => absurd hpos (by omega)⟩
  · have hread := Decimal.read?_true_toDigits (Int.not_lt.mp hpos)
    exact ⟨_, _, hdigits.cons fun rest => .minus, fun ts => .negative rfl rfl hread,
      fun _ ts => by simp [next]⟩

/-- A text is read as its token when each of its characters is escaped. -/
lemma reads_text (s : String) :
    Reads ('\x22' :: s.toList.flatMap (fun c => ['\\', c]) ++ ['\x22']) (tokens (.text s)) :=
  reads_of_spelling fun _ _ => .string (encodes_flatMap s.toList)

/-- Legible expressions that do not run into each other have a source. -/
lemma exists_written (es : List Expr) (hlegible : ∀ e ∈ es, e.IsLegible)
    (hchain : es.IsChain MayPrecede) : ∃ cs, Written cs es := by
  match es with
  | [] => exact ⟨[], written_nil⟩
  | e :: es =>
    have he : e.IsLegible := hlegible e List.mem_cons_self
    obtain ⟨ds, hes⟩ := exists_written es (fun x hx => hlegible x (List.mem_cons_of_mem e hx))
      hchain.tail
    have hitems : ∃ cs, Written cs e.items := by
      have : sizeOf e.items < 1 + sizeOf e + sizeOf es := by
        cases e <;> simp [items] <;> omega
      exact exists_written e.items (fun x hx => he.of_mem_items hx) (he.signs e (mem_nodes_self e))
    cases e with
    | atom name =>
      refine ⟨_, hes.cons hchain (reads_name (he.names name (mem_nodes_self _))) ?_ ?_⟩
      · exact fun _ ts => kind_next_tokens ts (by simp)
      · exact fun us rest hminus hus => .leaf (leaf_atom fun hname => hminus (by rw [hname])) hus
    | number n =>
      obtain ⟨cs, used, hcs, hleaf, hfirst⟩ := exists_reads_number n
      refine ⟨_, hes.cons hchain hcs (fun hle => hfirst (hle n rfl)) ?_⟩
      exact fun us rest _ hus => .leaf (hleaf _) hus
    | text s =>
      refine ⟨_, hes.cons hchain (reads_text s) (fun _ ts => by simp [tokens, next]) ?_⟩
      exact fun us rest _ hus => .leaf (leaf_text s _) hus
    | list items =>
      obtain ⟨cs, vs, hcs, hvs⟩ := hitems
      refine ⟨_, hes.cons hchain hcs.parenthesized (fun _ ts => by simp [next]) ?_⟩
      exact fun us rest _ hus => .list rfl rfl (hvs _ (by simp [next])).1 hus
    | quoted items =>
      obtain ⟨cs, vs, hcs, hvs⟩ := hitems
      refine ⟨_, hes.cons hchain (hcs.parenthesized.cons fun rest => .quote)
        (fun _ ts => by simp [next]) ?_⟩
      exact fun us rest _ hus => .quoted rfl rfl rfl (hvs _ (by simp [next])).1 hus
termination_by sizeOf es

end Expr

/-- A tree is the first expression of some source exactly if its names can be read, no
minus sign stands before a positive number, and it is not too deep. -/
theorem exists_parseExpr_iff (e : Expr) : (∃ s, parseExpr s = .ok e) ↔ e.Producible := by
  constructor
  · rintro ⟨s, hs⟩
    have hnamed : ∀ t ∈ (Source.ofString s).tokens.1, t.IsNamed :=
      (Token.lexes_tokens_ofList s.toList).forall_mem fun t r rest ht => ht.isNamed
    rw [parseExpr_eq] at hs
    have hsound : Pushdown.Sound [] (Source.ofString s).tokens.1 := ⟨.nil, by simp⟩
    obtain ⟨hlegible, hlevels⟩ := hsound.expression hnamed (Prod.ext hs rfl)
    exact ⟨hlegible, hlevels⟩
  · intro h
    obtain ⟨cs, us, hreads, hus⟩ :=
      Expr.exists_written [e] (by simpa using h.toIsLegible) (List.isChain_singleton e)
    have hspells : Pushdown.Spells us [e] [] := (hus [] (by simp [Pushdown.next, Token.endOfInput])).1
    have hlexes : Token.Lexes cs us := by
      simpa using hreads [] [] (by simp) (.nil (by simp))
    have hlevels : Expr.levelsAll [e] ≤ depthLimit := Expr.levelsAll_le fun x hx => by
      rw [List.mem_singleton.mp hx]
      exact h.levels_le
    have hscript : parseScript (String.ofList cs) = .ok [e] := by
      rw [parseScript_eq, Source.ofString, String.toList_ofList, Token.tokens_ofList_eq hlexes,
        Pushdown.script_of_spells hspells hlevels]
    exact ⟨String.ofList cs, parseExpr_of_parseScript hscript⟩

end TinyLisp
