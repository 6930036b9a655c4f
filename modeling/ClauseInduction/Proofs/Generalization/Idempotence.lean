import ClauseInduction.Proofs.Generalization.Lifting

/-!
# Generalizing a clause with itself

A clause subsumes its generalization with itself, since every literal meets itself.  The converse
can fail: a variable of the clause stands for itself where it meets itself, and it stays where it
meets a constant, so that one term has to do for all these places.  A reading of the places says
exactly when there is such a term.
-/

namespace ClauseInduction

namespace Clause

open PairTable

theorem KeepsVar.settled? {x : String} {p : Term × Term} (h : KeepsVar x p)
    (rule : AncestorRule) : settled? rule p.1 p.2 = some (.var x) := by
  cases h with
  | same => exact settled?_self rule _
  | left c => rfl
  | right c => rfl

theorem exists_settled?_const {rule : AncestorRule} {a b c : String} (h : rule a b = some c) :
    ∃ u, PairTable.settled? rule (.const a) (.const b) = some (.const u) := by
  by_cases hab : a = b
  · rw [hab]
    exact ⟨b, settled?_self rule (.const b)⟩
  · exact ⟨c, settled?_eq_some_iff.mpr (.ancestor hab h)⟩

/-!
# Readings

The variables that stay in place are read by a substitution.  The pairs that get new variables may
be read as any terms.
-/

/-- `ψ` reads the place of each pair as a term, and what it makes of two literals is in `D`.  A
pair that decides its term is read as `θ` reads this term. -/
structure IsReading (rule : AncestorRule) (A B D : Clause) (θ : String → Term)
    (ψ : Term → Term → Term) : Prop where
  settled : ∀ p, Aligned A B p → ∀ u, settled? rule p.1 p.2 = some u → ψ p.1 p.2 = u.subst θ
  mem : ∀ l ∈ A, ∀ m ∈ B, l.Compatible m → l.combine ψ m ∈ D

theorem isReading_iff {rule : AncestorRule} {A B D : Clause} {θ : String → Term}
    {ψ : Term → Term → Term} :
    IsReading rule A B D θ ψ ↔
      (∀ p ∈ alignedPairs A B, ∀ u ∈ settled? rule p.1 p.2, ψ p.1 p.2 = u.subst θ) ∧
      ∀ l ∈ A.literals, ∀ m ∈ B.literals, l.Compatible m → l.combine ψ m ∈ D := by
  simp only [mem_alignedPairs, Option.mem_def]
  exact ⟨fun h => ⟨h.settled, h.mem⟩, fun h => ⟨h.left, h.right⟩⟩

instance (rule : AncestorRule) (A B D : Clause) (θ : String → Term) (ψ : Term → Term → Term) :
    Decidable (IsReading rule A B D θ ψ) :=
  decidable_of_iff' _ isReading_iff

section Reading

variable {rule : AncestorRule} {A B D G : Clause} {φ ψ : Term → Term → Term} {θ : String → Term}

theorem IsGeneralization.isReading (h : IsGeneralization rule A B G φ)
    (hθ : ∀ g ∈ G, g.subst θ ∈ D) : IsReading rule A B D θ fun s t => (φ s t).subst θ where
  settled := by
    intro p hp u hu
    rw [h.settled p hp u hu]
  mem := by
    intro l hl m hm hlm
    rw [← Literal.subst_combine hlm]
    exact hθ _ ((h.mem_iff _).mpr ⟨l, hl, m, hm, hlm, rfl⟩)

/-- The places of a new variable hold one pair, so that the reading of this pair can be put for the
variable. -/
theorem IsReading.subsumes (hread : IsReading rule A B D θ ψ) (h : IsGeneralization rule A B G φ)
    (hapart : NamesApart rule A B φ) : G.Subsumes D := by
  have hconst : ∀ c, Aligned A B (.const c, .const c) → ψ (.const c) (.const c) = .const c := by
    intro c hp
    exact hread.settled _ hp _ (settled?_self rule (.const c))
  have hkept : ∀ x p q, Aligned A B p → Aligned A B q → KeepsVar x p → KeepsVar x q →
      ψ p.1 p.2 = ψ q.1 q.2 := by
    intro x p q hp hq hpx hqx
    rw [hread.settled p hp _ (hpx.settled? rule), hread.settled q hq _ (hqx.settled? rule)]
  rcases h.exists_reading hapart (fun p => ψ p.1 p.2) hconst hkept with ⟨τ, hτ⟩
  have hplace : ∀ p, Aligned A B p → (φ p.1 p.2).subst τ = ψ p.1 p.2 := by
    intro p hp
    rcases hτ p hp with hside | ⟨a, b, c, rfl, hrule, hc⟩
    · exact hside
    · rcases exists_settled?_const hrule with ⟨u, hu⟩
      rw [h.settled _ hp _ hu, hread.settled _ hp _ hu]
      rfl
  refine ⟨τ, fun g hg => ?_⟩
  rcases (h.mem_iff g).mp hg with ⟨l, hl, m, hm, hlm, rfl⟩
  have hcombine : (l.combine φ m).subst τ = l.combine ψ m := by
    rw [Literal.subst_combine hlm]
    exact Literal.combine_congr hlm fun p hp => hplace p ⟨l, hl, m, hm, hlm, hp⟩
  rw [hcombine]
  exact hread.mem l hl m hm hlm

theorem IsGeneralization.subsumes_iff (h : IsGeneralization rule A B G φ)
    (hapart : NamesApart rule A B φ) : G.Subsumes D ↔ ∃ θ ψ, IsReading rule A B D θ ψ := by
  constructor
  · intro hsub
    rcases hsub with ⟨θ, hθ⟩
    exact ⟨θ, _, h.isReading hθ⟩
  · intro hread
    rcases hread with ⟨θ, ψ, hread⟩
    exact hread.subsumes h hapart

end Reading

/-!
# A clause and its generalization with itself
-/

/-- Generalizing a clause with itself succeeds and gives a clause below it; the two are equivalent
if and only if the places of the clause have a reading.  They have one if no variable of the clause
stands opposite a constant. -/
theorem equivalent_generalize_self (C : Clause) (supply : NameSupply)
    (harity : ∀ l ∈ C, ∀ m ∈ C, l.Comparable m → l.arity = m.arity)
    (hdraws : (C.generalize (Taxonomy.rule none) C supply).2.count <
      supply.count + NameSupply.period) :
    ∃ G, (C.generalize (Taxonomy.rule none) C supply).1 = .ok G ∧ C.subsumes G = true ∧
      (G.subsumes C = true ↔ ∃ θ ψ, IsReading (Taxonomy.rule none) C C C θ ψ) ∧
      (NeverAbsorbs C C → G.subsumes C = true) ∧ (C.Ground → G.subsumes C = true) := by
  rcases generalize_ok_iff.mpr fun l hl m hm hlm => ⟨hlm, harity l hl m hm hlm⟩ with ⟨G, hG⟩
  rcases exists_isGeneralization (Prod.ext hG rfl) with ⟨φ, hgen, hapart⟩
  have hnever : NeverAbsorbs C C → G.subsumes C = true := by
    intro habsorbs
    have hboth := hgen.subsumes_both (hapart hdraws.le) habsorbs.absorbsConsistently
    exact Clause.subsumes_iff.mpr hboth.left
  refine ⟨G, hG, ?_, ?_, hnever, ?_⟩
  · exact Clause.subsumes_iff.mpr (hgen.least (Subsumes.refl C) (Subsumes.refl C))
  · rw [Clause.subsumes_iff]
    exact hgen.subsumes_iff (hapart hdraws.le)
  · intro hground
    exact hnever (neverAbsorbs_of_ground hground hground)

def somebodyKeeps : Clause :=
  ofList [⟨true, "keeps", [.var "X", .app ⟨"one", 1⟩ [.const "cat"]]⟩,
    ⟨true, "keeps", [.const "ann", .app ⟨"one", 1⟩ [.const "dog"]]⟩, ⟨false, "lost", [.var "X"]⟩]

/-- The variable meets the constant `ann` in both orders, and the first literal is an instance of
all literals that come of it. -/
theorem exists_generalize_somebodyKeeps :
    ¬ NeverAbsorbs somebodyKeeps somebodyKeeps ∧
    ∃ G, (somebodyKeeps.generalize (Taxonomy.rule none) somebodyKeeps default).1 = .ok G ∧
      somebodyKeeps.subsumes G = true ∧ G.subsumes somebodyKeeps = true := by
  have hread : IsReading (Taxonomy.rule none) somebodyKeeps somebodyKeeps somebodyKeeps .var
      fun s t => if s = .const "ann" ∧ t = .var "X" ∨ s = .const "dog" ∧ t = .const "cat"
        then t else s := by
    decide
  rcases equivalent_generalize_self somebodyKeeps default (by decide) (by decide) with
    ⟨G, hG, hbelow, hiff, -, -⟩
  exact ⟨by decide, G, hG, hbelow, hiff.mpr ⟨_, _, hread⟩⟩

/-- Each literal has a variable where the other one has a constant.  Both variables stay in the
literal that comes of the two, and no substitution sends it back together with its parents. -/
def crossed : Clause :=
  ofList [⟨true, "p", [.var "X", .const "a"]⟩, ⟨true, "p", [.const "b", .var "Y"]⟩]

theorem not_equivalent_generalize_self :
    ¬ ∀ (C : Clause) (supply : NameSupply),
      (∀ l ∈ C, ∀ m ∈ C, l.Comparable m → l.arity = m.arity) →
      (C.generalize (Taxonomy.rule none) C supply).2.count < supply.count + NameSupply.period →
      ∃ G, (C.generalize (Taxonomy.rule none) C supply).1 = .ok G ∧ G.subsumes C = true ∧
        C.subsumes G = true := by
  intro h
  rcases h crossed default (by decide) (by decide) with ⟨G, hG, hsub, -⟩
  have hcrossed : (crossed.generalize (Taxonomy.rule none) crossed default).1 =
      .ok (ofList [⟨true, "p", [.var "X", .const "a"]⟩, ⟨true, "p", [.var "X", .var "Y"]⟩,
        ⟨true, "p", [.const "b", .var "Y"]⟩]) := by
    decide
  rw [hcrossed] at hG
  cases hG
  revert hsub
  decide

end Clause

end ClauseInduction
