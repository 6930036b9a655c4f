import ClauseInduction.Proofs.Generalization.Table
import ClauseInduction.Proofs.Subsumption

/-!
# Generalizations as bounds

A generalization of two clauses is the set of all combinations of their compatible literals under
one choice of terms.  Every clause that subsumes both inputs subsumes the generalization, whatever
the ancestor rule.  The generalization gives one input back, except where an ancestor stands, if
each of its variables stands for one term of that input.
-/

namespace ClauseInduction

namespace Clause

open PairTable

/-- The pair of terms stands at corresponding places of two literals that are generalized
together. -/
def Aligned (A B : Clause) (p : Term × Term) : Prop :=
  ∃ l ∈ A, ∃ m ∈ B, l.Compatible m ∧ p ∈ l.aligned m

/-- `G` combines all pairs of comparable literals of `A` and `B`, and `φ` chooses the term for
each pair of terms as the pair decides. -/
structure IsGeneralization (rule : AncestorRule) (A B G : Clause) (φ : Term → Term → Term) :
    Prop where
  compatible : ∀ l ∈ A, ∀ m ∈ B, l.Comparable m → l.Compatible m
  mem_iff : ∀ g, g ∈ G ↔ ∃ l ∈ A, ∃ m ∈ B, l.Compatible m ∧ l.combine φ m = g
  same : ∀ t, φ t t = t
  settled : ∀ p, Aligned A B p → ∀ u, settled? rule p.1 p.2 = some u → φ p.1 p.2 = u

/-- Pairs that need a variable get variables of their own, which neither clause holds. -/
structure NamesApart (rule : AncestorRule) (A B : Clause) (φ : Term → Term → Term) : Prop where
  minted : ∀ p, Aligned A B p → settled? rule p.1 p.2 = none →
    ∃ x, φ p.1 p.2 = .var x ∧ ¬ x ∈ A.vars ∧ ¬ x ∈ B.vars
  apart : ∀ p q, Aligned A B p → Aligned A B q → settled? rule p.1 p.2 = none →
    settled? rule q.1 q.2 = none → φ p.1 p.2 = φ q.1 q.2 → p = q

def MintsVars (rule : AncestorRule) (A B : Clause) (φ : Term → Term → Term) : Prop :=
  ∀ p, Aligned A B p → settled? rule p.1 p.2 = none → ∃ x, φ p.1 p.2 = .var x

theorem NamesApart.mintsVars {rule : AncestorRule} {A B : Clause} {φ : Term → Term → Term}
    (h : NamesApart rule A B φ) : MintsVars rule A B φ := by
  intro p hp hnone
  rcases h.minted p hp hnone with ⟨x, hx, -, -⟩
  exact ⟨x, hx⟩

/-!
# What generalizing two clauses returns
-/

theorem mem_comparablePairs {A B : Clause} {pair : Literal × Literal} :
    pair ∈ comparablePairs A B ↔ pair.1 ∈ A ∧ pair.2 ∈ B ∧ pair.1.Comparable pair.2 := by
  rcases pair with ⟨l, m⟩
  simp only [comparablePairs, List.mem_flatMap, List.mem_map, List.mem_filter, decide_eq_true_eq,
    Prod.mk.injEq, mem_def]
  constructor
  · intro h
    rcases h with ⟨l', hl, m', ⟨hm, hlm⟩, rfl, rfl⟩
    exact ⟨hl, hm, hlm⟩
  · intro h
    exact ⟨l, h.left, m, ⟨h.right.left, h.right.right⟩, rfl, rfl⟩

theorem generalizePairs_spec (rule : AncestorRule) (reserved : List String)
    {pairs : List (Literal × Literal)} (h : ∀ pair ∈ pairs, pair.1.Compatible pair.2)
    (G : Clause) (p : PairTable) :
    ∃ G', generalizePairs rule reserved pairs G p =
        (.ok G', p.resolveAll rule reserved (pairs.flatMap fun pair => pair.1.aligned pair.2)) ∧
      ∀ g, g ∈ G' ↔ g ∈ G ∨ ∃ pair ∈ pairs, pair.1.combine
        (p.resolveAll rule reserved (pairs.flatMap fun pair => pair.1.aligned pair.2)).termOf
          pair.2 = g := by
  induction pairs generalizing G p with
  | nil => exact ⟨G, rfl, by simp⟩
  | cons pair pairs ih =>
      rcases pair with ⟨l, m⟩
      have hlm : l.Compatible m := h (l, m) (by simp)
      let q := p.resolveAll rule reserved (l.aligned m)
      let r := q.resolveAll rule reserved (pairs.flatMap fun pair => pair.1.aligned pair.2)
      have hr : p.resolveAll rule reserved
          (((l, m) :: pairs).flatMap fun pair => pair.1.aligned pair.2) = r := by
        rw [List.flatMap_cons, resolveAll_append]
      have hcombine : l.combine q.termOf m = l.combine r.termOf m := by
        apply Literal.combine_congr hlm
        intro pair hpair
        rcases exists_lookup_resolveAll rule reserved hpair p with ⟨u, hu⟩
        rw [termOf_eq hu, termOf_eq (grows_resolveAll rule reserved _ q _ _ _ hu)]
      rcases ih (fun pair hpair => h pair (by simp [hpair])) (G.insert (l.combine q.termOf m)) q
        with ⟨G', hG', hmem⟩
      refine ⟨G', ?_, fun g => ?_⟩
      · rw [hr, generalizePairs, if_pos hlm.right, Literal.generalizeList_args_eq]
        exact hG'
      · rw [hmem, mem_insert, hcombine, hr]
        simp only [List.mem_cons, exists_eq_or_imp]
        rw [or_assoc, eq_comm (a := g)]

theorem exists_error_generalizePairs (rule : AncestorRule) (reserved : List String)
    {pairs : List (Literal × Literal)} (h : ∃ pair ∈ pairs, pair.1.arity ≠ pair.2.arity)
    (G : Clause) (p : PairTable) :
    ∃ e q, generalizePairs rule reserved pairs G p = (.error e, q) := by
  induction pairs generalizing G p with
  | nil => simp at h
  | cons pair pairs ih =>
      rcases pair with ⟨l, m⟩
      rw [generalizePairs]
      by_cases hlm : l.arity = m.arity
      · rw [if_pos hlm]
        apply ih
        rcases h with ⟨pair, hpair, hne⟩
        rcases List.mem_cons.mp hpair with rfl | htail
        · exact absurd hlm hne
        · exact ⟨pair, htail, hne⟩
      · rw [if_neg hlm]
        exact ⟨_, _, rfl⟩

theorem generalize_ok_iff {rule : AncestorRule} {A B : Clause} {supply : NameSupply} :
    (∃ G, (A.generalize rule B supply).1 = .ok G) ↔
      ∀ l ∈ A, ∀ m ∈ B, l.Comparable m → l.Compatible m := by
  constructor
  · intro hok l hl m hm hlm
    by_contra harity
    have hpair : ∃ pair ∈ comparablePairs A B, pair.1.arity ≠ pair.2.arity :=
      ⟨(l, m), mem_comparablePairs.mpr ⟨hl, hm, hlm⟩, fun h => harity ⟨hlm, h⟩⟩
    rcases exists_error_generalizePairs rule (A.vars ++ B.vars) hpair ∅ (.ofSupply supply) with
      ⟨e, q, herror⟩
    rcases hok with ⟨G, hG⟩
    simp only [generalize, herror] at hG
    cases hG
  · intro h
    have hpairs : ∀ pair ∈ comparablePairs A B, pair.1.Compatible pair.2 := by
      intro pair hpair
      rcases mem_comparablePairs.mp hpair with ⟨hl, hm, hlm⟩
      exact h pair.1 hl pair.2 hm hlm
    rcases generalizePairs_spec rule (A.vars ++ B.vars) hpairs ∅ (.ofSupply supply) with ⟨G, hG, -⟩
    exact ⟨G, by simp only [generalize, hG]⟩

theorem exists_isGeneralization_mintsVars {rule : AncestorRule} {A B G : Clause}
    {supply supply' : NameSupply} (h : A.generalize rule B supply = (.ok G, supply')) :
    ∃ φ, IsGeneralization rule A B G φ ∧ MintsVars rule A B φ ∧
      (supply'.count ≤ supply.count + NameSupply.period → NamesApart rule A B φ) := by
  have hcompatible := generalize_ok_iff.mp ⟨G, congrArg Prod.fst h⟩
  have hpairs : ∀ pair ∈ comparablePairs A B, pair.1.Compatible pair.2 := by
    intro pair hpair
    rcases mem_comparablePairs.mp hpair with ⟨hl, hm, hlm⟩
    exact hcompatible pair.1 hl pair.2 hm hlm
  let steps := (comparablePairs A B).flatMap fun pair => pair.1.aligned pair.2
  let table := (ofSupply supply).resolveAll rule (A.vars ++ B.vars) steps
  rcases generalizePairs_spec rule (A.vars ++ B.vars) hpairs ∅ (.ofSupply supply) with
    ⟨G', hG', hmem⟩
  have hresult : A.generalize rule B supply = (.ok G', table.supply) := by
    simp only [generalize, hG']
    rfl
  rw [hresult] at h
  cases h
  have hsettles : table.Settles rule := settles_resolveAll rule (A.vars ++ B.vars) steps supply
  have hseparates : table.Separates rule (A.vars ++ B.vars) supply :=
    (separates_ofSupply rule (A.vars ++ B.vars) supply).resolveAll steps
  have hentry : ∀ p, Aligned A B p → ∃ u, table.chosen.lookup (p.1, p.2) = some u := by
    intro p hp
    rcases hp with ⟨l, hl, m, hm, hlm, hp⟩
    apply exists_lookup_resolveAll
    exact List.mem_flatMap.mpr ⟨(l, m), mem_comparablePairs.mpr ⟨hl, hm, hlm.left⟩, hp⟩
  refine ⟨table.termOf, ⟨hcompatible, ?_, hsettles.termOf_self, ?_⟩, ?_, fun hbound => ⟨?_, ?_⟩⟩
  · intro g
    rw [hmem]
    constructor
    · intro hg
      rcases hg with hg | ⟨pair, hpair, hg⟩
      · exact absurd hg (not_mem_empty g)
      · rcases mem_comparablePairs.mp hpair with ⟨hl, hm, -⟩
        exact ⟨pair.1, hl, pair.2, hm, hpairs pair hpair, hg⟩
    · intro hg
      rcases hg with ⟨l, hl, m, hm, hlm, hg⟩
      exact Or.inr ⟨(l, m), mem_comparablePairs.mpr ⟨hl, hm, hlm.left⟩, hg⟩
  · intro p hp u hu
    rcases hentry p hp with ⟨v, hv⟩
    rw [termOf_eq hv]
    exact hsettles _ _ _ _ hv hu
  · intro p hp hnone
    rcases hentry p hp with ⟨v, hv⟩
    rw [termOf_eq hv]
    exact everyEntry_var_resolveAll rule (A.vars ++ B.vars) steps supply _ _ _ hv hnone
  · intro p hp hnone
    rcases hentry p hp with ⟨v, hv⟩
    rcases hseparates.minted hbound _ _ _ hv hnone with ⟨c, -, -, hvar, hreserved⟩
    rw [termOf_eq hv]
    rw [List.mem_append, not_or] at hreserved
    exact ⟨_, hvar, hreserved⟩
  · intro p q hp hq hpnone hqnone hpq
    rcases hentry p hp with ⟨v, hv⟩
    rcases hentry q hq with ⟨w, hw⟩
    rw [termOf_eq hv, termOf_eq hw] at hpq
    rw [hpq] at hv
    exact hseparates.apart hbound _ _ _ _ _ hv hw hpnone hqnone

theorem exists_isGeneralization {rule : AncestorRule} {A B G : Clause}
    {supply supply' : NameSupply} (h : A.generalize rule B supply = (.ok G, supply')) :
    ∃ φ, IsGeneralization rule A B G φ ∧
      (supply'.count ≤ supply.count + NameSupply.period → NamesApart rule A B φ) := by
  rcases exists_isGeneralization_mintsVars h with ⟨φ, hG, -, hapart⟩
  exact ⟨φ, hG, hapart⟩

/-!
# Below every common lower bound

A literal that has instances in both inputs has an instance in the generalization: the
substitution combines its two images of each variable.
-/

theorem IsGeneralization.least {rule : AncestorRule} {A B G : Clause} {φ : Term → Term → Term}
    (h : IsGeneralization rule A B G φ) {D : Clause} (hDA : D.Subsumes A) (hDB : D.Subsumes B) :
    D.Subsumes G := by
  rcases hDA with ⟨σ, hσ⟩
  rcases hDB with ⟨τ, hτ⟩
  refine ⟨fun x => Term.combine φ (σ x) (τ x), fun l hl => ?_⟩
  rw [h.mem_iff]
  exact ⟨l.subst σ, hσ l hl, l.subst τ, hτ l hl, Literal.compatible_subst_subst σ τ l,
    Literal.combine_subst_subst h.same σ τ l⟩

/-- The generalization is least, under any rule and for any supply of names: what subsumes both
clauses subsumes it. -/
theorem subsumes_of_generalize_eq_ok (rule : AncestorRule) (A B : Clause) (supply : NameSupply)
    {G : Clause} (hG : (A.generalize rule B supply).1 = .ok G) (D : Clause)
    (hDA : D.subsumes A = true) (hDB : D.subsumes B = true) : D.subsumes G = true := by
  have hgen : A.generalize rule B supply = (.ok G, (A.generalize rule B supply).2) :=
    Prod.ext hG rfl
  rcases exists_isGeneralization hgen with ⟨φ, hleast, -⟩
  exact subsumes_iff.mpr (hleast.least (subsumes_iff.mp hDA) (subsumes_iff.mp hDB))

def oneSidedRule : AncestorRule :=
  fun a b => if a = "a" ∧ b = "b" then some "w" else none

def mixedLeft : Clause :=
  ofList [⟨true, "p", [.var "X", .const "a", .app ⟨"f", 1⟩ [.const "a", .const "c"]]⟩,
    ⟨false, "q", [.const "b"]⟩]

def mixedRight : Clause :=
  ofList [⟨true, "p", [.const "d", .const "b", .app ⟨"f", 1⟩ [.const "b", .const "c"]]⟩,
    ⟨false, "q", [.const "a"]⟩, ⟨false, "q", [.app ⟨"g", 0⟩ []]⟩]

/-- A variable absorbs a constant, an ancestor stands at two places, once below a symbol that is
declared for fewer arguments, and two pairs get variables. -/
theorem exists_generalize_mixed :
    ∃ G, (mixedLeft.generalize oneSidedRule mixedRight default).1 = .ok G ∧
      (ofList [⟨true, "p", [.var "Y", .var "X", .app ⟨"f", 1⟩ [.var "X", .const "c"]]⟩,
        ⟨false, "q", [.var "Z"]⟩]).subsumes G = true := by
  have hG : (mixedLeft.generalize oneSidedRule mixedRight default).1 =
      .ok (ofList [⟨true, "p", [.var "X", .const "w", .app ⟨"f", 1⟩ [.const "w", .const "c"]]⟩,
        ⟨false, "q", [.var "V1"]⟩, ⟨false, "q", [.var "V2"]⟩]) := by decide
  exact ⟨_, hG, subsumes_of_generalize_eq_ok oneSidedRule mixedLeft mixedRight default hG _
    (by decide) (by decide)⟩

/-!
# Above both inputs
-/

/-- Generalization leaves the variable in the place of the pair: it meets itself or a constant. -/
inductive KeepsVar (x : String) : Term × Term → Prop where
  | same : KeepsVar x (.var x, .var x)
  | left (c : String) : KeepsVar x (.var x, .const c)
  | right (c : String) : KeepsVar x (.const c, .var x)

/-- No variable is left in the places of two different pairs. -/
def AbsorbsConsistently (A B : Clause) : Prop :=
  ∀ x p q, Aligned A B p → Aligned A B q → KeepsVar x p → KeepsVar x q → p = q

def keptVar? : Term × Term → Option String
  | (.var x, .var y) => if x = y then some x else none
  | (.var x, .const _) => some x
  | (.const _, .var y) => some y
  | _ => none

theorem keepsVar_iff {x : String} {p : Term × Term} : KeepsVar x p ↔ keptVar? p = some x := by
  constructor
  · intro h
    cases h with
    | same => exact if_pos rfl
    | left c => rfl
    | right c => rfl
  · intro h
    rcases p with ⟨s, t⟩
    cases s with
    | var y =>
        cases t with
        | var z =>
            simp only [keptVar?, Option.ite_none_right_eq_some, Option.some.injEq] at h
            rcases h with ⟨rfl, rfl⟩
            exact .same
        | const c =>
            cases h
            exact .left c
        | app g ts => cases h
    | const c =>
        cases t with
        | var y =>
            cases h
            exact .right c
        | const d => cases h
        | app g ts => cases h
    | app f ss => cases t <;> cases h

def alignedPairs (A B : Clause) : List (Term × Term) :=
  A.literals.flatMap fun l =>
    (B.literals.filter fun m => l.Compatible m).flatMap fun m => l.aligned m

theorem mem_alignedPairs {A B : Clause} {p : Term × Term} :
    p ∈ alignedPairs A B ↔ Aligned A B p := by
  simp only [alignedPairs, Aligned, List.mem_flatMap, List.mem_filter, decide_eq_true_eq, mem_def,
    and_assoc]

theorem absorbsConsistently_iff {A B : Clause} :
    AbsorbsConsistently A B ↔ ∀ p ∈ alignedPairs A B, ∀ q ∈ alignedPairs A B,
      keptVar? p = keptVar? q → keptVar? p = none ∨ p = q := by
  simp only [AbsorbsConsistently, mem_alignedPairs, keepsVar_iff]
  constructor
  · intro h p hp q hq hpq
    cases hkept : keptVar? p with
    | none => exact Or.inl rfl
    | some x => exact Or.inr (h x p q hp hq hkept (hpq.symm.trans hkept))
  · intro h x p q hp hq hpx hqx
    refine (h p hp q hq (hpx.trans hqx.symm)).resolve_left ?_
    rw [hpx]
    exact Option.some_ne_none x

instance (A B : Clause) : Decidable (AbsorbsConsistently A B) :=
  decidable_of_iff' _ absorbsConsistently_iff

theorem settled?_cases {rule : AncestorRule} {p : Term × Term} {u : Term}
    (hshape : ¬ Term.SameShape p.1 p.2) (h : settled? rule p.1 p.2 = some u) :
    (∃ x, u = .var x ∧ KeepsVar x p) ∨ (∃ c, u = .const c ∧ p = (.const c, .const c)) ∨
      ∃ a b c, p = (.const a, .const b) ∧ rule a b = some c ∧ u = .const c := by
  rcases p with ⟨s, t⟩
  cases settled?_eq_some_iff.mp h with
  | same =>
      cases s with
      | var x => exact Or.inl ⟨x, rfl, .same⟩
      | const c => exact Or.inr (Or.inl ⟨c, rfl, rfl⟩)
      | app f ss => exact absurd ⟨rfl, rfl⟩ hshape
  | left x c => exact Or.inl ⟨x, rfl, .left c⟩
  | right c x => exact Or.inl ⟨x, rfl, .right c⟩
  | ancestor hab hrule => exact Or.inr (Or.inr ⟨_, _, _, rfl, hrule, rfl⟩)

theorem Aligned.not_sameShape {A B : Clause} {p : Term × Term} (h : Aligned A B p) :
    ¬ Term.SameShape p.1 p.2 := by
  rcases h with ⟨l, -, m, -, hlm, hp⟩
  rw [Literal.aligned_eq hlm] at hp
  exact Term.not_sameShape_of_mem_aligned hp

theorem IsGeneralization.term_cases {rule : AncestorRule} {A B G : Clause}
    {φ : Term → Term → Term} (h : IsGeneralization rule A B G φ) (hvars : MintsVars rule A B φ)
    {p : Term × Term} (hp : Aligned A B p) :
    (∃ x, φ p.1 p.2 = .var x) ∨ (∃ c, p = (.const c, .const c) ∧ φ p.1 p.2 = .const c) ∨
      ∃ a b c, p = (.const a, .const b) ∧ rule a b = some c ∧ φ p.1 p.2 = .const c := by
  cases hsettled : settled? rule p.1 p.2 with
  | none => exact Or.inl (hvars p hp hsettled)
  | some u =>
      rw [h.settled p hp u hsettled]
      rcases settled?_cases hp.not_sameShape hsettled with
        ⟨x, hx, -⟩ | ⟨c, hc, hpc⟩ | ⟨a, b, c, hpab, hrule, hc⟩
      · exact Or.inl ⟨x, hx⟩
      · exact Or.inr (Or.inl ⟨c, hpc, hc⟩)
      · exact Or.inr (Or.inr ⟨a, b, c, hpab, hrule, hc⟩)

theorem IsGeneralization.exists_eq_var {rule : AncestorRule} {A B G : Clause}
    {φ : Term → Term → Term} (h : IsGeneralization rule A B G φ) (hvars : MintsVars rule A B φ)
    {x : String} {t : Term} (hp : Aligned A B (.var x, t)) : ∃ y, φ (.var x) t = .var y := by
  rcases h.term_cases hvars hp with hvar | ⟨c, hc, -⟩ | ⟨a, b, c, hab, -, -⟩
  · exact hvar
  · cases hc
  · cases hab

theorem Aligned.vars_subset {A B : Clause} {p : Term × Term} (h : Aligned A B p) :
    p.1.vars ⊆ A.vars ∧ p.2.vars ⊆ B.vars := by
  rcases h with ⟨l, hl, m, hm, hlm, hp⟩
  rw [Literal.aligned_eq hlm] at hp
  rcases Term.vars_subset_of_mem_aligned hp with ⟨hleft, hright⟩
  constructor
  · intro x hx
    exact mem_vars.mpr ⟨l, hl, Literal.mem_vars_toTerm.mp (hleft hx)⟩
  · intro x hx
    exact mem_vars.mpr ⟨m, hm, Literal.mem_vars_toTerm.mp (hright hx)⟩

theorem KeepsVar.mem_vars {x : String} {p : Term × Term} (h : KeepsVar x p) :
    x ∈ p.1.vars ∨ x ∈ p.2.vars := by
  cases h with
  | same => exact Or.inl (List.mem_singleton.mpr rfl)
  | left c => exact Or.inl (List.mem_singleton.mpr rfl)
  | right c => exact Or.inr (List.mem_singleton.mpr rfl)

section Reading

variable {rule : AncestorRule} {A B G : Clause} {φ : Term → Term → Term}

/-- The places where a variable of the generalization stands agree on one side, if the places where
a variable is kept do. -/
theorem IsGeneralization.side_eq_of_eq_var (h : IsGeneralization rule A B G φ)
    (hapart : NamesApart rule A B φ) {side : Term × Term → Term}
    (hside : ∀ x p q, Aligned A B p → Aligned A B q → KeepsVar x p → KeepsVar x q →
      side p = side q)
    {p q : Term × Term} (hp : Aligned A B p) (hq : Aligned A B q) {x : String}
    (hpx : φ p.1 p.2 = .var x) (hqx : φ q.1 q.2 = .var x) : side p = side q := by
  have hkeeps : ∀ p, Aligned A B p → φ p.1 p.2 = .var x →
      settled? rule p.1 p.2 ≠ none → KeepsVar x p := by
    intro p hp hpx hsome
    rcases Option.ne_none_iff_exists'.mp hsome with ⟨u, hu⟩
    rw [h.settled p hp u hu] at hpx
    rcases settled?_cases hp.not_sameShape hu with
      ⟨y, hy, hkeep⟩ | ⟨c, hc, -⟩ | ⟨a, b, c, -, -, hc⟩
    · rw [hy] at hpx
      cases hpx
      exact hkeep
    · rw [hc] at hpx
      cases hpx
    · rw [hc] at hpx
      cases hpx
  -- a kept variable occurs in an input, a new one does not
  have hmixed : ∀ p q, Aligned A B p → Aligned A B q → φ p.1 p.2 = .var x →
      φ q.1 q.2 = .var x → settled? rule p.1 p.2 ≠ none → settled? rule q.1 q.2 ≠ none := by
    intro p q hp hq hpx hqx hsome hnone
    rcases hapart.minted q hq hnone with ⟨y, hy, hyA, hyB⟩
    rw [hqx] at hy
    cases hy
    rcases (hkeeps p hp hpx hsome).mem_vars with hx | hx
    · exact hyA (hp.vars_subset.left hx)
    · exact hyB (hp.vars_subset.right hx)
  by_cases hsome : settled? rule p.1 p.2 = none
  · by_cases hsome' : settled? rule q.1 q.2 = none
    · rw [hapart.apart p q hp hq hsome hsome' (hpx.trans hqx.symm)]
    · exact absurd hsome (hmixed q p hq hp hqx hpx hsome')
  · have hsome' := hmixed p q hp hq hpx hqx hsome
    exact hside x p q hp hq (hkeeps p hp hpx hsome) (hkeeps q hq hqx hsome')

/-- One substitution gives every pair its term on one side, except for constants that have become
an ancestor. -/
theorem IsGeneralization.exists_reading (h : IsGeneralization rule A B G φ)
    (hapart : NamesApart rule A B φ) (side : Term × Term → Term)
    (hconst : ∀ c, Aligned A B (.const c, .const c) → side (.const c, .const c) = .const c)
    (hside : ∀ x p q, Aligned A B p → Aligned A B q → KeepsVar x p → KeepsVar x q →
      side p = side q) :
    ∃ θ, ∀ p, Aligned A B p → (φ p.1 p.2).subst θ = side p ∨
      ∃ a b c, p = (.const a, .const b) ∧ rule a b = some c ∧ φ p.1 p.2 = .const c := by
  have hterm : ∀ x, ∃ t, ∀ p, Aligned A B p → φ p.1 p.2 = .var x → t = side p := by
    intro x
    by_cases hx : ∃ p, Aligned A B p ∧ φ p.1 p.2 = .var x
    · rcases hx with ⟨p, hp, hpx⟩
      exact ⟨side p, fun q hq hqx => h.side_eq_of_eq_var hapart hside hp hq hpx hqx⟩
    · exact ⟨.var x, fun p hp hpx => absurd ⟨p, hp, hpx⟩ hx⟩
  choose θ hθ using hterm
  refine ⟨θ, fun p hp => ?_⟩
  have hread : ∀ x, φ p.1 p.2 = .var x → (φ p.1 p.2).subst θ = side p := by
    intro x hpx
    rw [hpx]
    exact hθ x p hp hpx
  cases hsettled : settled? rule p.1 p.2 with
  | none =>
      rcases hapart.minted p hp hsettled with ⟨x, hx, -, -⟩
      exact Or.inl (hread x hx)
  | some u =>
      have hu := h.settled p hp u hsettled
      rcases settled?_cases hp.not_sameShape hsettled with
        ⟨x, hx, -⟩ | ⟨c, hc, hpc⟩ | ⟨a, b, c, hpab, hrule, hc⟩
      · exact Or.inl (hread x (hu.trans hx))
      · rw [hpc] at hp
        rw [hu, hc, hpc, hconst c hp]
        exact Or.inl rfl
      · exact Or.inr ⟨a, b, c, hpab, hrule, hu.trans hc⟩

end Reading

end Clause

end ClauseInduction
