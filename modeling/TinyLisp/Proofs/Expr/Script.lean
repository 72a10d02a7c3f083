import TinyLisp.Proofs.Expr.Lexeme
import TinyLisp.Proofs.Expr.Producible

/-!
# The expressions of a script

What holds of the first expression of a source holds of all expressions of a script, and
it holds of them as if they were the items of one list: a positive number never stands
behind the name `-` (`isLegible_of_parseScript`).  The reason is that an expression which
is no list is read off a few tokens (`Pushdown.exists_leaf_of_expression`), and that a
minus sign is read as a name only where no number follows.
-/

namespace TinyLisp

/-- Only a list starts with a parenthesis or a quotation mark. -/
lemma Expr.head?_flatten_of_quote?_eq_none {e : Expr} (h : e.quote? = none) (xs : List Lexeme) :
    (e.flatten ++ xs).head? ≠ some .opening ∧ (e.flatten ++ xs).head? ≠ some .mark := by
  cases e <;> simp [flatten, quote?] at h ⊢

namespace Pushdown

open TinyLisp.Expr

/-- An expression that is no list is read in a single step. -/
lemma exists_leaf_of_expression {ts rest : List Token} {e : Expr}
    (h : expression [] ts = (.ok e, rest)) (he : e.quote? = none)
    (hregular : ∀ t ∈ ts, t.IsRegular) : ∃ used, ts = used ++ rest ∧ Leaf used e rest := by
  rw [expression_eq_resume] at h
  have hfine : (step [] ts).isFine = true := by
    cases hstep : step [] ts with
    | go frames rest' => rfl
    | stop outcome rest' =>
      rw [hstep] at h
      obtain ⟨rfl, -⟩ := Prod.mk.inj h
      rfl
  have hmoves := moves_of_step rfl hfine
  generalize step [] ts = turn at h hmoves
  -- a parenthesis or a quotation mark that is read first is part of the expression
  have hopen : ∀ frames rest', (∀ t ∈ rest', t.IsRegular) →
      ((opened frames).head? = some .opening ∨ (opened frames).head? = some .mark) →
      resume (.go frames rest') ≠ (.ok e, rest) := by
    intro frames rest' hrest' hfirst hresume
    have hlexemes := congrArg List.head? (collapse_expression hresume hrest')
    rw [Lexeme.head?_collapse, List.head?_append] at hlexemes
    obtain ⟨hparen, hmark⟩ := head?_flatten_of_quote?_eq_none he
      (Lexeme.collapse (Token.lexemes rest))
    rw [← hlexemes] at hparen hmark
    rcases hfirst with hfirst | hfirst
    · exact hparen (by rw [hfirst]; rfl)
    · exact hmark (by rw [hfirst]; rfl)
  cases hmoves with
  | leaf hleaf _ =>
    obtain ⟨hok, rfl⟩ := Prod.mk.inj h
    obtain rfl := Except.ok.inj hok
    exact ⟨_, rfl, hleaf⟩
  | lparen _ _ =>
    exact absurd h (hopen _ _ (fun t ht => hregular t (List.mem_cons_of_mem _ ht)) (Or.inl rfl))
  | quote _ _ =>
    exact absurd h (hopen _ _ (fun t ht => hregular t (List.mem_cons_of_mem _ ht)) (Or.inr rfl))

/-- Of two expressions that are read one after the other, the second may follow the
first. -/
lemma mayPrecede_of_expression {ts rest rest' : List Token} {x y : Expr}
    (hx : expression [] ts = (.ok x, rest)) (hy : expression [] rest = (.ok y, rest'))
    (hnamed : ∀ t ∈ ts, t.IsNamed) (hregular : ∀ t ∈ ts, t.IsRegular) : MayPrecede x y := by
  rintro rfl n rfl
  obtain ⟨used, rfl, hminus⟩ := exists_leaf_of_expression hx rfl hregular
  have hnext := (hminus.isLegible fun t ht => hnamed t (List.mem_append_left _ ht)).2.2 rfl
  obtain ⟨used', rfl, hnumber⟩ :=
    exists_leaf_of_expression hy rfl fun t ht => hregular t (List.mem_append_right _ ht)
  exact hnumber.number_nonpos hnext

/-- The expressions of a script are legible, not too deep, and do not run into each
other. -/
lemma isLegible_script {ts : List Token} {es : List Expr} (h : (script ts).1 = .ok es)
    (hnamed : ∀ t ∈ ts, t.IsNamed) (hregular : ∀ t ∈ ts, t.IsRegular) :
    (∀ e ∈ es, e.IsLegible ∧ e.levels ≤ depthLimit) ∧ es.IsChain MayPrecede := by
  -- the first expression is kept in mind, to compare it with the one before it
  suffices hscript : (∀ e ∈ es.head?, ∃ rest, expression [] ts = (.ok e, rest)) ∧
      (∀ e ∈ es, e.IsLegible ∧ e.levels ≤ depthLimit) ∧ es.IsChain MayPrecede from hscript.2
  revert hnamed hregular
  refine script_induction (motive := fun ts es => (∀ t ∈ ts, t.IsNamed) →
    (∀ t ∈ ts, t.IsRegular) → (∀ e ∈ es.head?, ∃ rest, expression [] ts = (.ok e, rest)) ∧
      (∀ e ∈ es, e.IsLegible ∧ e.levels ≤ depthLimit) ∧ es.IsChain MayPrecede) ?_ ?_ h
  · intro _ _
    exact ⟨by simp, by simp, .nil⟩
  · intro ts rest e es hexpr ih hnamed hregular
    obtain ⟨t, us, hts⟩ := exists_used_expression hexpr
    have hrest : ∀ u ∈ rest, u ∈ ts := fun u hu => hts ▸ List.mem_append_right _ hu
    obtain ⟨hfirst, hlegible, hchain⟩ :=
      ih (fun u hu => hnamed u (hrest u hu)) (fun u hu => hregular u (hrest u hu))
    have hsound : Sound [] ts := ⟨.nil, by simp⟩
    refine ⟨?_, List.forall_mem_cons.mpr ⟨hsound.expression hnamed hexpr, hlegible⟩, ?_⟩
    · intro x hx
      obtain rfl : e = x := by simpa using hx
      exact ⟨rest, hexpr⟩
    · refine List.isChain_cons.mpr ⟨fun y hy => ?_, hchain⟩
      obtain ⟨rest', hy'⟩ := hfirst y hy
      exact mayPrecede_of_expression hexpr hy' hnamed hregular

end Pushdown

/-- The expressions of a script are as legible as the items of a list, and not too deep. -/
theorem isLegible_of_parseScript {s : String} {es : List Expr} (h : parseScript s = .ok es) :
    (Expr.list es).IsLegible ∧ Expr.levelsAll es ≤ depthLimit := by
  have hlex := Token.lexes_tokens_ofList s.toList
  rw [parseScript_eq] at h
  obtain ⟨hlegible, hchain⟩ := Pushdown.isLegible_script h
    (hlex.forall_mem fun t r rest ht => ht.isNamed)
    (hlex.forall_mem fun t r rest ht => ht.isRegular)
  constructor
  · exact Expr.isLegible_of_items (by simp) hchain fun x hx => (hlegible x hx).1
  · exact Expr.levelsAll_le fun e he => (hlegible e he).2

end TinyLisp
