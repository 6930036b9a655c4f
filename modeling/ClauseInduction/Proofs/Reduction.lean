import Mathlib.GroupTheory.OrderOfElement
import ClauseInduction.Reduction
import ClauseInduction.Proofs.Variant

/-!
# Reduced clauses are cores, and cores are unique

One pass of reduction leaves a clause that subsumes the original and in which no literal is
redundant, so a second pass takes nothing away.  Irredundant clauses that subsume each other are
variants: the substitutions between them compose to a permutation of the literals, some power of
which is the identity, and a substitution that can be undone renames variables.
-/

namespace ClauseInduction

namespace Clause

def Irredundant (C : Clause) : Prop :=
  ∀ l ∈ C, ¬ C.Subsumes (C.erase l)

/-!
# What a pass leaves
-/

theorem pruneEach_subset (covers : CoverageTest) (C : Clause) (ls : List Literal)
    (kept : Clause) : pruneEach covers C ls kept ⊆ kept :=
  fun _ hl => (literals_pruneEach_sublist covers C ls kept).subset hl

/-- Literals that are left were not redundant when they were tried, and the clause has only
become smaller since. -/
theorem pruneEach_spec {C : Clause} (ls : List Literal) {kept : Clause} (hkept : C.Subsumes kept) :
    C.Subsumes (pruneEach subsumes C ls kept) ∧
      ∀ l ∈ ls, l ∈ pruneEach subsumes C ls kept →
        ¬ C.Subsumes ((pruneEach subsumes C ls kept).erase l) := by
  induction ls generalizing kept with
  | nil => exact ⟨hkept, fun l hl => nomatch hl⟩
  | cons l ls ih =>
      rw [pruneEach]
      cases hcovers : C.subsumes (kept.erase l) with
      | true =>
          rw [if_pos rfl]
          rcases ih (subsumes_iff.mp hcovers) with ⟨hresult, hleft⟩
          refine ⟨hresult, List.forall_mem_cons.mpr ⟨?_, hleft⟩⟩
          intro hl
          have hl' : l ∈ kept.erase l := pruneEach_subset subsumes C ls _ l hl
          exact absurd rfl (mem_erase.mp hl').right
      | false =>
          rw [if_neg Bool.false_ne_true]
          rcases ih hkept with ⟨hresult, hleft⟩
          refine ⟨hresult, List.forall_mem_cons.mpr ⟨?_, hleft⟩⟩
          intro _ hagain
          apply subsumes_eq_false_iff.mp hcovers
          apply hagain.trans
          apply Subsumes.of_subset
          intro m hm
          rcases mem_erase.mp hm with ⟨hm, hml⟩
          exact mem_erase.mpr ⟨pruneEach_subset subsumes C ls kept m hm, hml⟩

theorem subsumes_prune (C : Clause) : C.Subsumes (C.prune subsumes) :=
  (pruneEach_spec C.literals (Subsumes.refl C)).left

theorem prune_subset (C : Clause) : C.prune subsumes ⊆ C :=
  pruneEach_subset subsumes C C.literals C

theorem prune_eq_of_size_eq {covers : CoverageTest} {C : Clause}
    (hsize : (C.prune covers).size = C.size) : C.prune covers = C :=
  ext ((literals_prune_sublist covers C).eq_of_length hsize)

theorem sameLiterals_prune_iff {C : Clause} :
    (C.prune subsumes).SameLiterals C ↔ (C.prune subsumes).size = C.size := by
  constructor
  · intro h
    exact h.isVariant.size_eq
  · intro h
    rw [prune_eq_of_size_eq h]
    exact ⟨fun l hl => hl, fun l hl => hl⟩

theorem irredundant_prune (C : Clause) : (C.prune subsumes).Irredundant := by
  intro l hl hredundant
  have hC : l ∈ C := prune_subset C l hl
  exact (pruneEach_spec C.literals (Subsumes.refl C)).right l hC hl
    ((subsumes_prune C).trans hredundant)

theorem prune_eq_self {C : Clause} (h : C.Irredundant) : C.prune subsumes = C := by
  have hkeep : ∀ ls : List Literal, (∀ l ∈ ls, l ∈ C) → pruneEach subsumes C ls C = C := by
    intro ls hls
    induction ls with
    | nil => rfl
    | cons l ls ih =>
        have hl : C.subsumes (C.erase l) = false :=
          subsumes_eq_false_iff.mpr (h l (hls l (by simp)))
        rw [pruneEach, hl, if_neg Bool.false_ne_true]
        exact ih (fun m hm => hls m (by simp [hm]))
  exact hkeep C.literals (fun l hl => hl)

theorem reduce_eq_prune (C : Clause) (strategy : ReductionStrategy) :
    C.reduce subsumes strategy = C.prune subsumes := by
  cases strategy with
  | singlePass => rfl
  | fixedPoint =>
      rw [reduce, settle, prune_eq_self (irredundant_prune C), if_pos rfl]

theorem Irredundant.not_subsumes {C D : Clause} (h : C.Irredundant) (hpart : D ⊆ C)
    (hproper : ¬ C ⊆ D) : ¬ C.Subsumes D := by
  intro hsubsumes
  have hlost : ∃ l ∈ C, ¬ l ∈ D := by
    by_contra hnone
    exact hproper fun l hl => by_contra fun hlD => hnone ⟨l, hl, hlD⟩
  rcases hlost with ⟨l, hl, hlD⟩
  apply h l hl
  apply hsubsumes.trans
  apply Subsumes.of_subset
  intro m hm
  refine mem_erase.mpr ⟨hpart m hm, ?_⟩
  intro hml
  exact hlD (hml ▸ hm)

/-- One pass leaves some of the literals in their order, as many as it takes to subsume and to be
subsumed by the clause; no proper part of them is subsumed by them all.  Further passes change
nothing. -/
theorem reduce_isCore (C : Clause) :
    (C.reduce subsumes .singlePass).literals.Sublist C.literals ∧
    C.subsumes (C.reduce subsumes .singlePass) = true ∧
    (C.reduce subsumes .singlePass).subsumes C = true ∧
    (∀ D : Clause, D ⊆ C.reduce subsumes .singlePass → ¬ C.reduce subsumes .singlePass ⊆ D →
      (C.reduce subsumes .singlePass).subsumes D = false) ∧
    C.reduce subsumes .fixedPoint = C.reduce subsumes .singlePass := by
  rw [reduce_eq_prune, reduce_eq_prune]
  refine ⟨literals_prune_sublist subsumes C, subsumes_iff.mpr (subsumes_prune C), ?_, ?_, rfl⟩
  · exact subsumes_iff.mpr (Subsumes.of_subset (prune_subset C))
  · intro D hpart hproper
    exact subsumes_eq_false_iff.mpr ((irredundant_prune C).not_subsumes hpart hproper)

def tailedTriangle : Clause :=
  ofList [⟨true, "e", [.var "X", .var "U"]⟩, ⟨true, "e", [.var "X", .var "Y"]⟩,
    ⟨true, "e", [.var "Y", .var "Z"]⟩, ⟨true, "e", [.var "U", .var "W"]⟩,
    ⟨true, "e", [.var "Z", .var "X"]⟩]

theorem reduce_tailedTriangle :
    (tailedTriangle.reduce subsumes .fixedPoint).literals =
      [⟨true, "e", [.var "X", .var "Y"]⟩, ⟨true, "e", [.var "Y", .var "Z"]⟩,
        ⟨true, "e", [.var "Z", .var "X"]⟩] ∧
    (tailedTriangle.reduce subsumes .singlePass).subsumes
      (ofList [⟨true, "e", [.var "Z", .var "X"]⟩, ⟨true, "e", [.var "X", .var "Y"]⟩]) = false := by
  rcases reduce_isCore tailedTriangle with ⟨-, -, -, hminimal, hfixed⟩
  constructor
  · rw [hfixed]
    decide
  · exact hminimal _ (by decide) (by decide)

/-!
# Substitutions that permute a clause
-/

def iterate (σ : String → Term) : Nat → String → Term
  | 0, x => .var x
  | n + 1, x => (σ x).subst (iterate σ n)

theorem subst_iterate (σ : String → Term) (n : Nat) (l : Literal) :
    l.subst (iterate σ n) = (Literal.subst σ)^[n] l := by
  induction n generalizing l with
  | zero => exact l.subst_var
  | succ n ih =>
      rw [Function.iterate_succ_apply, ← ih, Literal.subst_subst]
      rfl

/-- A substitution of an irredundant clause into itself reaches every literal: otherwise a literal
that is not reached could be left out. -/
theorem Irredundant.exists_preimage {C D : Clause} (h : D.Irredundant) (hDC : D.Subsumes C)
    {σ : String → Term} (hσ : ∀ l ∈ C, l.subst σ ∈ D) {m : Literal} (hm : m ∈ D) :
    ∃ l ∈ C, l.subst σ = m := by
  by_contra hnone
  apply h m hm
  apply hDC.trans
  refine ⟨σ, fun l hl => mem_erase.mpr ⟨hσ l hl, ?_⟩⟩
  intro hlm
  exact hnone ⟨l, hl, hlm⟩

theorem Irredundant.exists_undo {C : Clause} (h : C.Irredundant) {σ : String → Term}
    (hσ : ∀ l ∈ C, l.subst σ ∈ C) : ∃ θ, ∀ l ∈ C, (l.subst σ).subst θ = l := by
  let f : { l // l ∈ C.literals } → { l // l ∈ C.literals } :=
    fun l => ⟨l.1.subst σ, hσ l.1 l.2⟩
  have hsurj : Function.Surjective f := by
    intro m
    rcases h.exists_preimage (Subsumes.refl C) hσ m.2 with ⟨l, hl, hlm⟩
    exact ⟨⟨l, hl⟩, Subtype.ext hlm⟩
  have hbij : Function.Bijective f := ⟨Finite.injective_iff_surjective.mpr hsurj, hsurj⟩
  -- the literals are finitely many, so a power of the permutation is the identity
  rcases (isOfFinOrder_of_finite (Equiv.ofBijective f hbij)).exists_pow_eq_one with ⟨n, hn, hone⟩
  rcases Nat.exists_eq_succ_of_ne_zero hn.ne' with ⟨k, rfl⟩
  have hiterate : ∀ (n : Nat) (l : { l // l ∈ C.literals }),
      (((Equiv.ofBijective f hbij) ^ n) l).1 = (Literal.subst σ)^[n] l.1 := by
    intro n
    induction n with
    | zero => intro l; rfl
    | succ n ih =>
        intro l
        rw [pow_succ, Equiv.Perm.mul_apply, ih]
        rfl
  refine ⟨iterate σ k, fun l hl => ?_⟩
  calc (l.subst σ).subst (iterate σ k)
      = (Literal.subst σ)^[k + 1] l := by rw [subst_iterate, Function.iterate_succ_apply]
    _ = (((Equiv.ofBijective f hbij) ^ (k + 1)) ⟨l, hl⟩).1 := (hiterate (k + 1) ⟨l, hl⟩).symm
    _ = l := by rw [hone]; rfl

/-!
# Cores are unique
-/

theorem Irredundant.isVariant {C D : Clause} (hC : C.Irredundant) (hD : D.Irredundant)
    (hCD : C.Subsumes D) (hDC : D.Subsumes C) : C.IsVariant D := by
  rcases hCD with ⟨σ, hσ⟩
  rcases hDC with ⟨τ, hτ⟩
  -- going to `D` and back permutes `C`, so going to `D` can be undone and renames
  have hround : ∀ l ∈ C, l.subst (fun x => (σ x).subst τ) ∈ C := by
    intro l hl
    rw [← Literal.subst_subst]
    exact hτ _ (hσ l hl)
  rcases hC.exists_undo hround with ⟨θ, hθ⟩
  have hundo : ∀ x ∈ C.vars, (σ x).subst (fun y => (τ y).subst θ) = .var x := by
    intro x hx
    rcases mem_vars.mp hx with ⟨l, hl, hxl⟩
    have hl' := hθ l hl
    rw [Literal.subst_subst] at hl'
    have hx' := Literal.subst_eq_subst_iff.mp (hl'.trans l.subst_var.symm) x hxl
    rw [← hx', Term.subst_subst]
  rcases Term.exists_relabel_of_undo hundo with ⟨ρ, hinj, hρ⟩
  have hrename : ∀ l ∈ C, l.subst σ = l.subst (relabel ρ) := by
    intro l hl
    apply Literal.subst_congr
    intro x hx
    exact hρ x (mem_vars.mpr ⟨l, hl, hx⟩)
  refine ⟨ρ, hinj, fun m => ⟨?_, ?_⟩⟩
  · intro hm
    rcases hD.exists_preimage ⟨τ, hτ⟩ hσ hm with ⟨l, hl, hlm⟩
    exact ⟨l, hl, (hrename l hl).symm.trans hlm⟩
  · intro hm
    rcases hm with ⟨l, hl, hlm⟩
    rw [← hlm]
    exact hrename l hl ▸ hσ l hl

theorem isVariant_prune {C D : Clause} (hCD : C.Subsumes D) (hDC : D.Subsumes C) :
    (C.prune subsumes).IsVariant (D.prune subsumes) := by
  have hpruned : ∀ E : Clause, (E.prune subsumes).Subsumes E :=
    fun E => Subsumes.of_subset (prune_subset E)
  apply (irredundant_prune C).isVariant (irredundant_prune D)
  · exact (hpruned C).trans (hCD.trans (subsumes_prune D))
  · exact (hpruned D).trans (hDC.trans (subsumes_prune C))

/-- Clauses that subsume each other reduce to variants, whatever the strategies; so do clauses
made of the same literals in different orders. -/
theorem isVariant_reduce (s t : ReductionStrategy) :
    (∀ C D : Clause, C.subsumes D = true → D.subsumes C = true →
      (C.reduce subsumes s).isVariant (D.reduce subsumes t) = true) ∧
    (∀ ls ms : List Literal, (∀ l, l ∈ ls ↔ l ∈ ms) →
      ((ofList ls).reduce subsumes s).isVariant ((ofList ms).reduce subsumes t) = true) := by
  simp only [reduce_eq_prune, isVariant_iff, subsumes_iff]
  constructor
  · intro C D hCD hDC
    exact isVariant_prune hCD hDC
  · intro ls ms hmem
    apply isVariant_prune
    · exact Subsumes.of_subset fun l hl => mem_ofList.mpr ((hmem l).mp (mem_ofList.mp hl))
    · exact Subsumes.of_subset fun l hl => mem_ofList.mpr ((hmem l).mpr (mem_ofList.mp hl))

theorem isVariant_reduce_edges :
    ((ofList [⟨true, "e", [.var "X", .var "Y"]⟩, ⟨true, "e", [.var "Y", .var "X"]⟩,
        ⟨true, "e", [.var "U", .var "V"]⟩, ⟨true, "e", [.var "V", .var "U"]⟩]).reduce
          subsumes .singlePass).isVariant
      ((ofList [⟨true, "e", [.var "U", .var "V"]⟩, ⟨true, "e", [.var "V", .var "U"]⟩,
        ⟨true, "e", [.var "X", .var "Y"]⟩, ⟨true, "e", [.var "Y", .var "X"]⟩]).reduce
          subsumes .fixedPoint) = true :=
  (isVariant_reduce .singlePass .fixedPoint).left _ _ (by decide) (by decide)

end Clause

end ClauseInduction
