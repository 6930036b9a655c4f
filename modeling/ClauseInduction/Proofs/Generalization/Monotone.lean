import ClauseInduction.Proofs.Generalization.Renaming

/-!
# Generalization is monotone

Some renaming takes every literal of a clause to a literal of another one; the renaming need not
keep variables apart.  Generalizing both with one ground clause keeps this relation.  It is also
kept when only the larger clause is generalized, provided the smaller one subsumes the ground
clause: every variable then meets what the smaller clause has in its place, and leaves a variable
there.
-/

namespace ClauseInduction

namespace Clause

open PairTable

/-!
# Renaming into a clause
-/

def RenamesInto (C D : Clause) : Prop :=
  ∃ ρ : String → String, ∀ l ∈ C, l.subst (relabel ρ) ∈ D

theorem RenamesInto.refl (C : Clause) : C.RenamesInto C := by
  refine ⟨id, fun l hl => ?_⟩
  have hid : l.subst (relabel id) = l := l.subst_var
  rw [hid]
  exact hl

theorem RenamesInto.of_subset {B C D : Clause} (h : C.RenamesInto D) (hBC : B ⊆ C) :
    B.RenamesInto D := by
  rcases h with ⟨ρ, hρ⟩
  exact ⟨ρ, fun l hl => hρ l (hBC l hl)⟩

theorem RenamesInto.subsumes {C D : Clause} (h : C.RenamesInto D) : C.Subsumes D := by
  rcases h with ⟨ρ, hρ⟩
  exact ⟨relabel ρ, hρ⟩

section Monotone

variable {rule : AncestorRule} {A A' B G G' : Clause} {φ φ' : Term → Term → Term}

theorem IsGeneralization.renamesInto (hG : IsGeneralization rule A B G φ)
    (hG' : IsGeneralization rule A' B G' φ') (hapart : NamesApart rule A B φ)
    (hvars' : MintsVars rule A' B φ') (hB : B.Ground) (hA : A.RenamesInto A') :
    G.RenamesInto G' := by
  rcases hA with ⟨ρ, hρ⟩
  have hkeep : ∀ m ∈ B, m.subst (relabel ρ) ∈ B := by
    intro m hm
    rw [hB.subst_eq hm]
    exact hm
  have hsame : ∀ p, Aligned A B p → p.1.subst (relabel ρ) = p.2.subst (relabel ρ) → p.1 = p.2 := by
    intro p hp heq
    have hright : p.2.vars = [] := List.eq_nil_of_subset_nil (hB ▸ hp.vars_subset.right)
    exact Term.eq_of_subst_relabel_eq_ground hright (heq.trans (Term.subst_eq_self hright _))
  have hfollows := follows_of_subst rule hρ hkeep hsame
  rcases hfollows.exists_extends hapart hvars' with ⟨ρ', hρ'⟩
  refine ⟨ρ', fun g hg => ?_⟩
  rcases (hG.mem_iff g).mp hg with ⟨l, hl, m, hm, hlm, rfl⟩
  have hcombine : (l.combine φ m).subst (relabel ρ') =
      (l.subst (relabel ρ)).combine φ' (m.subst (relabel ρ)) := by
    rw [Literal.subst_combine hlm, Literal.combine_relabel hlm]
    apply Literal.combine_congr hlm
    intro p hp
    exact hρ'.subst_eq hfollows hG hG' hapart ⟨l, hl, m, hm, hlm, hp⟩
  rw [hcombine]
  exact (hG'.mem_iff _).mpr
    ⟨_, hρ l hl, _, hkeep m hm, Literal.compatible_relabel.mpr hlm, rfl⟩

theorem IsGeneralization.renamesInto_of_subsumes (hG : IsGeneralization rule A B G φ)
    (hvars : MintsVars rule A B φ) {C : Clause} (hCA : C.RenamesInto A) (hCB : C.Subsumes B) :
    C.RenamesInto G := by
  rcases hCA with ⟨ρ, hρ⟩
  rcases hCB with ⟨θ, hθ⟩
  have hvar : ∀ x, ∃ y, x ∈ C.vars → φ (.var (ρ x)) (θ x) = .var y := by
    intro x
    by_cases hx : x ∈ C.vars
    · rcases mem_vars.mp hx with ⟨l, hl, hxl⟩
      have hleaf : (Term.var (ρ x), θ x) ∈ Term.aligned (relabel ρ x) (θ x) := by
        rw [Term.aligned_of_not_sameShape (by simp [relabel, Term.SameShape])]
        exact List.mem_singleton.mpr rfl
      have hp : Aligned A B (.var (ρ x), θ x) :=
        ⟨_, hρ l hl, _, hθ l hl, Literal.compatible_subst_subst _ _ l,
          Literal.aligned_subset_aligned_subst hxl hleaf⟩
      rcases hG.exists_eq_var hvars hp with ⟨y, hy⟩
      exact ⟨y, fun _ => hy⟩
    · exact ⟨x, fun hx' => absurd hx' hx⟩
  choose ρ' hρ' using hvar
  refine ⟨ρ', fun l hl => ?_⟩
  have hinstance : l.subst (relabel ρ') =
      (l.subst (relabel ρ)).combine φ (l.subst θ) := by
    rw [Literal.combine_subst_subst hG.same]
    apply Literal.subst_congr
    intro x hx
    exact (hρ' x (mem_vars.mpr ⟨l, hl, hx⟩)).symm
  rw [hinstance]
  exact (hG.mem_iff _).mpr
    ⟨_, hρ l hl, _, hθ l hl, Literal.compatible_subst_subst _ _ l, rfl⟩

end Monotone

/-!
# What generalizing returns
-/

theorem RenamesInto.generalize {rule : AncestorRule} {A A' B G G' : Clause}
    {supply supply' next next' : NameSupply} (h : A.RenamesInto A') (hB : B.Ground)
    (hgen : A.generalize rule B supply = (.ok G, next))
    (hgen' : A'.generalize rule B supply' = (.ok G', next'))
    (hdraws : next.count ≤ supply.count + NameSupply.period) : G.RenamesInto G' := by
  rcases exists_isGeneralization hgen with ⟨φ, hG, hapart⟩
  rcases exists_isGeneralization_mintsVars hgen' with ⟨φ', hG', hvars', -⟩
  exact hG.renamesInto hG' (hapart hdraws) hvars' hB h

theorem RenamesInto.generalize_right {rule : AncestorRule} {A B C G : Clause}
    {supply next : NameSupply} (h : C.RenamesInto A) (hC : C.Subsumes B)
    (hgen : A.generalize rule B supply = (.ok G, next)) : C.RenamesInto G := by
  rcases exists_isGeneralization_mintsVars hgen with ⟨φ, hG, hvars, -⟩
  exact hG.renamesInto_of_subsumes hvars h hC

end Clause
end ClauseInduction
