import TinyLisp.Proofs.Expr.Shape

/-!
# The order of evaluation

Evaluating an expression evaluates some of its items first (`Expr.demands`), which
evaluate some of theirs, and so on.  An expression inside another is found by its
place: the positions of the items on the way down to it.  `Expr.Evaluates` relates a
tree to the places that are evaluated and to the expressions that stand there.

Two places can be compared in two ways.  One lies entirely before another
(`Place.Before`) if the ways to them part and the first goes to an earlier item.  The
evaluation of one ends sooner than that of another (`Place.Sooner`) if it lies entirely
before it or inside of it.  `Expr.visits` lists what is evaluated in this order.
-/

namespace TinyLisp

/-- A place in a tree: the positions of the items on the way down to it. -/
abbrev Place := List ℕ

namespace Place

/-- One place lies entirely before another. -/
def Before : Place → Place → Prop
  | i :: p, j :: q => i < j ∨ i = j ∧ Before p q
  | _, _ => False

/-- The evaluation of what stands at one place ends before that of what stands at
another, because it lies entirely before it or inside of it. -/
def Sooner (p q : Place) : Prop :=
  Before p q ∨ q <+: p ∧ q ≠ p

@[simp] lemma not_before_nil (p : Place) : ¬Before p [] := by
  cases p <;> simp [Before]

@[simp] lemma nil_not_before (p : Place) : ¬Before [] p := by
  cases p <;> simp [Before]

lemma sooner_cons_nil (i : ℕ) (p : Place) : Sooner (i :: p) [] := by
  right
  constructor
  · exact List.nil_prefix
  · exact (List.cons_ne_nil i p).symm

lemma Sooner.cons {p q : Place} (h : Sooner p q) (i : ℕ) : Sooner (i :: p) (i :: q) := by
  rcases h with h | ⟨h, hne⟩
  · exact Or.inl (Or.inr ⟨rfl, h⟩)
  · exact Or.inr ⟨List.cons_prefix_cons.mpr ⟨rfl, h⟩, fun heq => hne (List.cons.inj heq).2⟩

lemma sooner_of_lt {i j : ℕ} (h : i < j) (p q : Place) : Sooner (i :: p) (j :: q) :=
  Or.inl (Or.inl h)

/-- Nothing that ends sooner than a place has the place entirely before it. -/
lemma Sooner.not_before {p q : Place} (h : Sooner p q) : ¬Before q p := by
  induction q generalizing p with
  | nil => exact nil_not_before p
  | cons j q ih =>
    cases p with
    | nil => exact not_before_nil _
    | cons i p =>
      intro hb
      rcases h with (hlt | ⟨rfl, h⟩) | ⟨hp, hne⟩
      · rcases hb with hlt' | ⟨rfl, -⟩
        · omega
        · omega
      · rcases hb with hlt | ⟨-, hb⟩
        · omega
        · exact ih (Or.inl h) hb
      · obtain ⟨rfl, hqp⟩ := List.cons_prefix_cons.mp hp
        rcases hb with hlt | ⟨-, hb⟩
        · omega
        · exact ih (Or.inr ⟨hqp, fun heq => hne (by rw [heq])⟩) hb

end Place

namespace Expr

/-- The items that an expression evaluates, with their positions: of a list that starts
with a name all others, and of a list of one other item that item. -/
def demands : Expr → List (Expr × ℕ)
  | .list (.atom _ :: args) => args.zipIdx 1
  | .list [e] => [(e, 0)]
  | _ => []

/-- Evaluating the tree evaluates the expression at the place. -/
inductive Evaluates (e : Expr) : Place → Expr → Prop
  /-- The tree itself is evaluated. -/
  | root : Evaluates e [] e
  /-- What an evaluated expression demands is evaluated as well. -/
  | item {p : Place} {x y : Expr} {i : ℕ} :
      Evaluates e p x → (y, i) ∈ x.demands → Evaluates e (p ++ [i]) y

/-! ### What is evaluated -/

/-- What is demanded stands at its position. -/
lemma getElem?_items_of_mem_demands {e x : Expr} {i : ℕ} (h : (x, i) ∈ e.demands) :
    e.items[i]? = some x := by
  unfold demands at h
  split at h
  · obtain ⟨hle, hlt, hget⟩ := List.mem_zipIdx h
    obtain ⟨k, rfl⟩ : ∃ k, i = k + 1 := ⟨i - 1, by omega⟩
    simp [items, hget]
  · simp_all [items]
  · simp at h

lemma levels_lt_of_mem_demands {e x : Expr} {i : ℕ} (h : (x, i) ∈ e.demands) :
    x.levels < e.levels :=
  levels_item_lt (List.mem_of_getElem? (getElem?_items_of_mem_demands h))

/-- No two items are demanded at one position. -/
lemma eq_of_mem_demands {e x y : Expr} {i : ℕ} (hx : (x, i) ∈ e.demands)
    (hy : (y, i) ∈ e.demands) : x = y := by
  have hsome := getElem?_items_of_mem_demands hx
  rw [getElem?_items_of_mem_demands hy] at hsome
  exact (Option.some.inj hsome).symm

/-- Demands come in the order of their positions. -/
lemma pairwise_demands (e : Expr) : e.demands.Pairwise fun c d => c.2 < d.2 := by
  unfold demands
  split
  · rename_i args
    have hrange : ((args.zipIdx 1).map Prod.snd).Pairwise (· < ·) := by
      rw [List.zipIdx_map_snd]
      exact List.pairwise_lt_range'
    exact List.pairwise_map.mp hrange
  · exact List.pairwise_singleton _ _
  · exact List.Pairwise.nil

/-- Induction over what is evaluated on behalf of an expression. -/
lemma demands_induction {motive : Expr → Prop}
    (step : ∀ e, (∀ d ∈ e.demands, motive d.1) → motive e) (e : Expr) : motive e := by
  induction hn : e.levels using Nat.strong_induction_on generalizing e with
  | _ n ih =>
    subst hn
    exact step e fun d hd => ih d.1.levels (levels_lt_of_mem_demands hd) d.1 rfl

/-- What a demanded item evaluates is evaluated. -/
lemma Evaluates.cons {e x y : Expr} {i : ℕ} {p : Place} (h : x.Evaluates p y)
    (hx : (x, i) ∈ e.demands) : e.Evaluates (i :: p) y := by
  induction h with
  | root => exact Evaluates.item .root hx
  | item _ hy ih => exact Evaluates.item ih hy

/-- Whatever is evaluated is the tree itself or evaluated by a demanded item. -/
lemma Evaluates.eq_or_exists {e y : Expr} {p : Place} (h : e.Evaluates p y) :
    (p = [] ∧ y = e) ∨
      ∃ x i q, (x, i) ∈ e.demands ∧ p = i :: q ∧ x.Evaluates q y := by
  induction h with
  | root => exact Or.inl ⟨rfl, rfl⟩
  | item _ hy ih =>
    right
    rcases ih with ⟨rfl, rfl⟩ | ⟨x, i, q, hx, rfl, hq⟩
    · exact ⟨_, _, [], hy, rfl, .root⟩
    · exact ⟨x, i, q ++ [_], hx, rfl, .item hq hy⟩

lemma evaluates_nil {e y : Expr} : e.Evaluates [] y ↔ y = e := by
  constructor
  · intro h
    rcases h.eq_or_exists with ⟨-, rfl⟩ | ⟨_, _, _, _, hp, _⟩
    · rfl
    · simp at hp
  · rintro rfl
    exact .root

lemma evaluates_cons {e y : Expr} {i : ℕ} {p : Place} :
    e.Evaluates (i :: p) y ↔ ∃ x, (x, i) ∈ e.demands ∧ x.Evaluates p y := by
  constructor
  · intro h
    rcases h.eq_or_exists with ⟨hp, -⟩ | ⟨x, j, q, hx, hp, hq⟩
    · simp at hp
    · obtain ⟨rfl, rfl⟩ := List.cons.inj hp
      exact ⟨x, hx, hq⟩
  · rintro ⟨x, hx, h⟩
    exact h.cons hx

/-- At each place at most one expression is evaluated. -/
lemma Evaluates.unique {e x y : Expr} {p : Place} (hx : e.Evaluates p x)
    (hy : e.Evaluates p y) : x = y := by
  induction p generalizing e with
  | nil => exact (evaluates_nil.mp hx).trans (evaluates_nil.mp hy).symm
  | cons i p ih =>
    obtain ⟨z, hz, hx⟩ := evaluates_cons.mp hx
    obtain ⟨z', hz', hy⟩ := evaluates_cons.mp hy
    obtain rfl := eq_of_mem_demands hz hz'
    exact ih hx hy

/-- Nothing is evaluated below an expression that demands nothing. -/
lemma Evaluates.eq_of_isPrefix {e x y : Expr} {p q : Place} (hq : e.Evaluates q x)
    (hx : x.demands = []) (hp : e.Evaluates p y) (h : q <+: p) : p = q := by
  induction q generalizing e p with
  | nil =>
    obtain rfl := evaluates_nil.mp hq
    rcases hp.eq_or_exists with ⟨rfl, -⟩ | ⟨_, _, _, hd, _⟩
    · rfl
    · simp [hx] at hd
  | cons i q ih =>
    obtain ⟨p, rfl⟩ : ∃ p', p = i :: p' := by
      obtain ⟨r, rfl⟩ := h
      exact ⟨q ++ r, rfl⟩
    obtain ⟨z, hz, hq⟩ := evaluates_cons.mp hq
    obtain ⟨z', hz', hp⟩ := evaluates_cons.mp hp
    obtain rfl := eq_of_mem_demands hz hz'
    rw [ih hq hp (List.cons_prefix_cons.mp h).2]

/-! ### In the order of completion -/

/-- What is evaluated, with the places, in the order in which the evaluations end. -/
def visits (e : Expr) : List (Place × Expr) :=
  (e.demands.attach.flatMap fun d => (visits d.1.1).map fun v => (d.1.2 :: v.1, v.2))
    ++ [([], e)]
termination_by e.levels
decreasing_by exact levels_lt_of_mem_demands d.2

lemma visits_eq (e : Expr) :
    e.visits =
      (e.demands.flatMap fun d => d.1.visits.map fun v => (d.2 :: v.1, v.2)) ++ [([], e)] := by
  rw [visits]
  conv_rhs => rw [← List.attach_map_subtype_val e.demands, List.flatMap_map]

/-- The list of visits holds what is evaluated and nothing else. -/
lemma mem_visits {e x : Expr} {p : Place} : (p, x) ∈ e.visits ↔ e.Evaluates p x := by
  induction e using demands_induction generalizing p with
  | step e ih =>
    rw [visits_eq]
    cases p with
    | nil => simp [evaluates_nil]
    | cons i p =>
      rw [evaluates_cons]
      constructor
      · intro h
        simp only [List.mem_append, List.mem_flatMap, List.mem_map, List.mem_singleton,
          Prod.mk.injEq, reduceCtorEq, false_and, or_false] at h
        obtain ⟨d, hd, v, hv, ⟨rfl, rfl⟩, rfl⟩ := h
        exact ⟨d.1, hd, (ih d hd).mp hv⟩
      · rintro ⟨y, hy, h⟩
        apply List.mem_append_left
        rw [List.mem_flatMap]
        exact ⟨(y, i), hy, List.mem_map_of_mem ((ih (y, i) hy).mpr h)⟩

/-- The visits are in the order in which they end. -/
lemma pairwise_visits (e : Expr) : e.visits.Pairwise fun v w => Place.Sooner v.1 w.1 := by
  induction e using demands_induction with
  | step e ih =>
    rw [visits_eq, List.pairwise_append, List.pairwise_flatMap]
    refine ⟨⟨?_, ?_⟩, List.pairwise_singleton _ _, ?_⟩
    · intro d hd
      rw [List.pairwise_map]
      exact (ih d hd).imp fun h => h.cons d.2
    · refine (pairwise_demands e).imp fun hlt v hv w hw => ?_
      obtain ⟨v, -, rfl⟩ := List.mem_map.mp hv
      obtain ⟨w, -, rfl⟩ := List.mem_map.mp hw
      exact Place.sooner_of_lt hlt v.1 w.1
    · intro v hv w hw
      obtain rfl := List.mem_singleton.mp hw
      obtain ⟨d, -, hv⟩ := List.mem_flatMap.mp hv
      obtain ⟨v, -, rfl⟩ := List.mem_map.mp hv
      exact Place.sooner_cons_nil d.2 v.1

end Expr

end TinyLisp
