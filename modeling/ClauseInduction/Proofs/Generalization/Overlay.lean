import ClauseInduction.Proofs.Generalization.Bounds
import ClauseInduction.Proofs.Taxonomy.Ancestor

/-!
# Clauses that lie over a sample

A literal lies over another one when variables or ancestors stand in the places of its constants.
As long as the samples have constants at corresponding places, a generalization lies over all of
them.  A literal that lies over a sample is its own combination with it, provided the rule gives
back the ancestor when it is asked for an ancestor and its descendant.
-/

namespace ClauseInduction

theorem mem_zip_zip {α β γ : Type} {ss : List α} {ts : List β} {us : List γ} {q : (α × γ) × β}
    (hq : q ∈ (ss.zip us).zip ts) :
    q.1 ∈ ss.zip us ∧ (q.1.1, q.2) ∈ ss.zip ts ∧ (q.2, q.1.2) ∈ ts.zip us := by
  induction ss generalizing ts us with
  | nil => cases hq
  | cons s ss ih =>
      cases us with
      | nil => cases hq
      | cons u us =>
          cases ts with
          | nil => cases hq
          | cons t ts =>
              rcases List.mem_cons.mp hq with rfl | hq
              · exact ⟨List.mem_cons_self, List.mem_cons_self, List.mem_cons_self⟩
              · rcases ih hq with ⟨hsu, hst, htu⟩
                exact ⟨List.mem_cons_of_mem _ hsu, List.mem_cons_of_mem _ hst,
                  List.mem_cons_of_mem _ htu⟩

theorem exists_mem_zip {α β : Type} {xs : List α} {ys : List β} (h : xs.length ≤ ys.length)
    {x : α} (hx : x ∈ xs) : ∃ y, (x, y) ∈ xs.zip ys := by
  have hmem : x ∈ (xs.zip ys).map Prod.fst := by
    rw [List.map_fst_zip h]
    exact hx
  rcases List.mem_map.mp hmem with ⟨⟨x', y⟩, hxy, rfl⟩
  exact ⟨y, hxy⟩

namespace Term

def IsConst : Term → Prop
  | const _ => True
  | _ => False

instance : DecidablePred IsConst
  | var _ => isFalse id
  | const _ => isTrue trivial
  | app _ _ => isFalse id

theorem isConst_iff {t : Term} : t.IsConst ↔ ∃ c, t = const c := by
  cases t <;> simp [IsConst]

/-!
# Three terms
-/

theorem eq_subst_of_mem_aligned {s : Term} {θ : String → Term} {p : Term × Term}
    (h : p ∈ aligned s (s.subst θ)) : p.2 = p.1.subst θ := by
  induction s with
  | var x => rw [List.mem_singleton.mp h]
  | const c => rw [List.mem_singleton.mp h]
  | app f args ih =>
      rw [subst_app, aligned_app (by simp), mem_alignedList] at h
      rcases h with ⟨q, hq, hp⟩
      rw [zip_map_self, List.mem_map] at hq
      rcases hq with ⟨t, ht, rfl⟩
      exact ih t ht hp

theorem exists_args_of_isConst {f : FunctionSymbol} {ts : List Term} {u : Term}
    (h : ∀ p ∈ aligned (app f ts) u, p.1.IsConst) : ∃ us, u = app f us ∧ ts.length = us.length := by
  by_cases hshape : SameShape (app f ts) u
  · rcases sameShape_iff.mp hshape with ⟨f', ts', us, ht, rfl, hlength⟩
    cases ht
    exact ⟨us, rfl, hlength⟩
  · rw [aligned_of_not_sameShape hshape] at h
    exact absurd (h _ List.mem_cons_self) id

theorem not_sameShape_const (s : Term) (c : String) : ¬ SameShape s (const c) := by
  cases s <;> exact id

theorem not_sameShape_const_left (c : String) (t : Term) : ¬ SameShape (const c) t :=
  id

theorem isConst_of_aligned {s t u : Term} (hst : ∀ p ∈ aligned s t, p.2.IsConst)
    (htu : ∀ p ∈ aligned t u, p.1.IsConst ∧ p.2.IsConst) :
    ∀ p ∈ aligned s u, p.2.IsConst := by
  induction s, t using pairInduction generalizing u with
  | leaf s t hshape =>
      rw [aligned_of_not_sameShape hshape, List.forall_mem_singleton] at hst
      rcases isConst_iff.mp hst with ⟨c, rfl⟩
      rw [aligned_of_not_sameShape (not_sameShape_const_left c u), List.forall_mem_singleton] at htu
      rcases isConst_iff.mp htu.right with ⟨d, rfl⟩
      rw [aligned_of_not_sameShape (not_sameShape_const s d), List.forall_mem_singleton]
      exact trivial
  | app f ss ts hlength ih =>
      rcases exists_args_of_isConst fun p hp => (htu p hp).left with ⟨us, rfl, hlength'⟩
      rw [aligned_app hlength] at hst
      rw [aligned_app hlength'] at htu
      intro p hp
      rw [aligned_app (hlength.trans hlength'), mem_alignedList] at hp
      rcases hp with ⟨q, hq, hp⟩
      have hzip : (ss.zip us).length ≤ ts.length := by simp [hlength]
      rcases exists_mem_zip hzip hq with ⟨t, hqt⟩
      rcases mem_zip_zip hqt with ⟨-, hst', htu'⟩
      exact ih (q.1, t) hst' (fun p hp => hst p (mem_alignedList.mpr ⟨_, hst', hp⟩))
        (fun p hp => htu p (mem_alignedList.mpr ⟨_, htu', hp⟩)) p hp

theorem exists_aligned_of_combine {φ : Term → Term → Term} {s t u : Term}
    (hst : ∀ p ∈ aligned s t, p.2.IsConst)
    (htu : ∀ p ∈ aligned t u, p.1.IsConst ∧ p.2.IsConst) :
    ∀ r ∈ aligned (combine φ s u) t, ∃ p ∈ aligned s u,
      r.1 = φ p.1 p.2 ∧ (p.1, r.2) ∈ aligned s t ∧ (r.2, p.2) ∈ aligned t u := by
  induction s, t using pairInduction generalizing u with
  | leaf s t hshape =>
      rw [aligned_of_not_sameShape hshape, List.forall_mem_singleton] at hst
      rcases isConst_iff.mp hst with ⟨c, rfl⟩
      have hcu := aligned_of_not_sameShape (not_sameShape_const_left c u)
      rw [hcu, List.forall_mem_singleton] at htu
      rcases isConst_iff.mp htu.right with ⟨d, rfl⟩
      intro r hr
      rw [combine_of_not_sameShape (not_sameShape_const s d),
        aligned_of_not_sameShape (not_sameShape_const _ c), List.mem_singleton] at hr
      refine ⟨(s, const d), ?_, ?_, ?_, ?_⟩
      · rw [aligned_of_not_sameShape (not_sameShape_const s d)]
        exact List.mem_singleton.mpr rfl
      · rw [hr]
      · rw [hr, aligned_of_not_sameShape hshape]
        exact List.mem_singleton.mpr rfl
      · rw [hr, hcu]
        exact List.mem_singleton.mpr rfl
  | app f ss ts hlength ih =>
      rcases exists_args_of_isConst fun p hp => (htu p hp).left with ⟨us, rfl, hlength'⟩
      rw [aligned_app hlength] at hst ⊢
      rw [aligned_app hlength'] at htu ⊢
      intro r hr
      rw [combine_app (hlength.trans hlength'), aligned_app (by simp; omega), mem_alignedList,
        List.zip_map_left] at hr
      rcases hr with ⟨q, hq, hr⟩
      rcases List.mem_map.mp hq with ⟨q', hq', rfl⟩
      rcases mem_zip_zip hq' with ⟨hsu', hst', htu'⟩
      rcases ih (q'.1.1, q'.2) hst' (fun p hp => hst p (mem_alignedList.mpr ⟨_, hst', hp⟩))
        (fun p hp => htu p (mem_alignedList.mpr ⟨_, htu', hp⟩)) r hr with ⟨p, hp, hrp, hpt, hpu⟩
      refine ⟨p, ?_, hrp, mem_alignedList.mpr ⟨_, hst', hpt⟩, mem_alignedList.mpr ⟨_, htu', hpu⟩⟩
      rw [aligned_app (hlength.trans hlength')]
      exact mem_alignedList.mpr ⟨_, hsu', hp⟩

end Term

namespace Literal

theorem eq_subst_of_mem_aligned {l : Literal} {θ : String → Term} {p : Term × Term}
    (h : p ∈ l.aligned (l.subst θ)) : p.2 = p.1.subst θ := by
  rw [aligned_eq (compatible_subst θ l), toTerm_subst] at h
  exact Term.eq_subst_of_mem_aligned h

theorem eq_of_mem_aligned_self {l : Literal} {p : Term × Term} (h : p ∈ l.aligned l) :
    p.2 = p.1 := by
  have hinstance : p ∈ l.aligned (l.subst .var) := by
    rw [l.subst_var]
    exact h
  exact (eq_subst_of_mem_aligned hinstance).trans p.1.subst_var

variable {k l m : Literal}

theorem isConst_of_aligned (hkl : k.Compatible l) (hlm : l.Compatible m)
    (hleft : ∀ p ∈ k.aligned l, p.2.IsConst)
    (hright : ∀ p ∈ l.aligned m, p.1.IsConst ∧ p.2.IsConst) : ∀ p ∈ k.aligned m, p.2.IsConst := by
  rw [aligned_eq hkl] at hleft
  rw [aligned_eq hlm] at hright
  rw [aligned_eq (hkl.trans hlm)]
  exact Term.isConst_of_aligned hleft hright

theorem exists_aligned_of_combine {φ : Term → Term → Term} (hkl : k.Compatible l)
    (hlm : l.Compatible m) (hleft : ∀ p ∈ k.aligned l, p.2.IsConst)
    (hright : ∀ p ∈ l.aligned m, p.1.IsConst ∧ p.2.IsConst) :
    ∀ r ∈ (k.combine φ m).aligned l, ∃ p ∈ k.aligned m,
      r.1 = φ p.1 p.2 ∧ (p.1, r.2) ∈ k.aligned l ∧ (r.2, p.2) ∈ l.aligned m := by
  have hkm := hkl.trans hlm
  rw [aligned_eq hkl] at hleft ⊢
  rw [aligned_eq hlm] at hright ⊢
  rw [aligned_eq hkm, aligned_eq ((combine_compatible hkm φ).trans hkl), toTerm_combine hkm]
  exact Term.exists_aligned_of_combine hleft hright

end Literal

namespace Clause

open PairTable

/-!
# Lying over a sample
-/

/-- Corresponding places of compatible literals hold constants. -/
def AlignsConstants (A B : Clause) : Prop :=
  ∀ l ∈ A, ∀ m ∈ B, l.Compatible m → ∀ p ∈ l.aligned m, p.1.IsConst ∧ p.2.IsConst

instance (A B : Clause) : Decidable (AlignsConstants A B) :=
  inferInstanceAs (Decidable (∀ l ∈ A.literals, ∀ m ∈ B.literals, l.Compatible m →
    ∀ p ∈ l.aligned m, p.1.IsConst ∧ p.2.IsConst))

/-- A variable or an ancestor stands in the place of a constant. -/
inductive Overlies (taxonomy : Option Taxonomy) : Term × Term → Prop where
  | var (x d : String) : Overlies taxonomy (.var x, .const d)
  | const {c d : String} (habove : Taxonomy.IsAncestor taxonomy c d) :
      Overlies taxonomy (.const c, .const d)

theorem Overlies.isConst {taxonomy : Option Taxonomy} {p : Term × Term} (h : Overlies taxonomy p) :
    p.2.IsConst := by
  cases h <;> exact trivial

def LiesOver (taxonomy : Option Taxonomy) (A B : Clause) : Prop :=
  ∀ l ∈ A, ∃ m ∈ B, l.Compatible m ∧ ∀ p ∈ l.aligned m, Overlies taxonomy p

theorem LiesOver.of_subset {taxonomy : Option Taxonomy} {A A' B : Clause}
    (h : A.LiesOver taxonomy B) (hA' : A' ⊆ A) : A'.LiesOver taxonomy B :=
  fun l hl => h l (hA' l hl)

section Lying

variable {taxonomy : Option Taxonomy} {A B C G : Clause} {φ : Term → Term → Term}

/-- What holds constants at the places of the samples lies over every sample that it subsumes. -/
theorem LiesOver.of_subsumes (h : A.LiesOver taxonomy B) (hBC : B.AlignsConstants C)
    (hAC : A.Subsumes C) : A.LiesOver taxonomy C := by
  rcases hAC with ⟨θ, hθ⟩
  intro l hl
  rcases h l hl with ⟨k, hk, hlk, hover⟩
  have hkm : k.Compatible (l.subst θ) := hlk.symm.trans (Literal.compatible_subst θ l)
  refine ⟨l.subst θ, hθ l hl, Literal.compatible_subst θ l, ?_⟩
  intro p hp
  have hconst := Literal.isConst_of_aligned hlk hkm (fun p hp => (hover p hp).isConst)
    (hBC k hk _ (hθ l hl) hkm) p hp
  have hinstance := Literal.eq_subst_of_mem_aligned hp
  rcases p with ⟨s, t⟩
  rcases Term.isConst_iff.mp hconst with ⟨d, rfl⟩
  cases s with
  | var x => exact .var x d
  | const c =>
      cases hinstance
      exact .const (Taxonomy.IsAncestor.refl taxonomy d)
  | app f args => cases hinstance

theorem liesOver_self (hC : C.AlignsConstants C) : C.LiesOver taxonomy C := by
  intro l hl
  refine ⟨l, hl, ⟨⟨rfl, rfl⟩, rfl⟩, ?_⟩
  intro p hp
  have hconst := (hC l hl l hl ⟨⟨rfl, rfl⟩, rfl⟩ p hp).left
  have hsame := Literal.eq_of_mem_aligned_self hp
  rcases p with ⟨s, t⟩
  cases hsame
  rcases Term.isConst_iff.mp hconst with ⟨c, rfl⟩
  exact .const (Taxonomy.IsAncestor.refl taxonomy c)

theorem Overlies.generalize (hG : IsGeneralization (Taxonomy.rule taxonomy) A C G φ)
    (hvars : MintsVars (Taxonomy.rule taxonomy) A C φ) {p : Term × Term} (hp : Aligned A C p)
    {t : Term} (h : Overlies taxonomy (p.1, t)) : Overlies taxonomy (φ p.1 p.2, t) := by
  rcases p with ⟨s, u⟩
  cases h with
  | var x d =>
      rcases hG.exists_eq_var hvars hp with ⟨y, hy⟩
      rw [hy]
      exact .var y d
  | @const c d habove =>
      rcases hG.term_cases hvars hp with ⟨y, hy⟩ | ⟨a, ha, hφ⟩ | ⟨a, b, e, hab, hrule, hφ⟩
      · rw [hy]
        exact .var y d
      · cases ha
        rw [hφ]
        exact .const habove
      · cases hab
        rw [hφ]
        exact .const ((Taxonomy.isAncestor_of_rule hrule).left.trans habove)

theorem IsGeneralization.overlies_right (hG : IsGeneralization (Taxonomy.rule taxonomy) A C G φ)
    (hvars : MintsVars (Taxonomy.rule taxonomy) A C φ) {p : Term × Term} (hp : Aligned A C p)
    (hconst : p.2.IsConst) : Overlies taxonomy (φ p.1 p.2, p.2) := by
  rcases Term.isConst_iff.mp hconst with ⟨d, hd⟩
  rcases hG.term_cases hvars hp with ⟨y, hy⟩ | ⟨c, hc, hφ⟩ | ⟨a, b, c, hab, hrule, hφ⟩
  · rw [hy, hd]
    exact .var y d
  · rw [hφ, hc]
    exact .const (Taxonomy.IsAncestor.refl taxonomy c)
  · rw [hφ, hab]
    exact .const (Taxonomy.isAncestor_of_rule hrule).right

theorem LiesOver.generalize (h : A.LiesOver taxonomy B) (hBC : B.AlignsConstants C)
    (hG : IsGeneralization (Taxonomy.rule taxonomy) A C G φ)
    (hvars : MintsVars (Taxonomy.rule taxonomy) A C φ) : G.LiesOver taxonomy B := by
  intro g hg
  rcases (hG.mem_iff g).mp hg with ⟨l, hl, m, hm, hlm, rfl⟩
  rcases h l hl with ⟨k, hk, hlk, hover⟩
  have hkm := hlk.symm.trans hlm
  refine ⟨k, hk, (Literal.combine_compatible hlm φ).trans hlk, ?_⟩
  intro r hr
  rcases Literal.exists_aligned_of_combine hlk hkm (fun p hp => (hover p hp).isConst)
    (hBC k hk m hm hkm) r hr with ⟨p, hp, hrp, hpt, -⟩
  have hr' : r = (φ p.1 p.2, r.2) := Prod.ext hrp rfl
  rw [hr']
  exact (hover _ hpt).generalize hG hvars ⟨l, hl, m, hm, hlm, hp⟩

theorem LiesOver.generalize_right (h : A.LiesOver taxonomy B) (hBC : B.AlignsConstants C)
    (hC : C.AlignsConstants C) (hG : IsGeneralization (Taxonomy.rule taxonomy) A C G φ)
    (hvars : MintsVars (Taxonomy.rule taxonomy) A C φ) : G.LiesOver taxonomy C := by
  intro g hg
  rcases (hG.mem_iff g).mp hg with ⟨l, hl, m, hm, hlm, rfl⟩
  rcases h l hl with ⟨k, hk, hlk, hover⟩
  have hkm := hlk.symm.trans hlm
  have hmm : m.Compatible m := hlm.symm.trans hlm
  have hconst := Literal.isConst_of_aligned hlk hkm (fun p hp => (hover p hp).isConst)
    (hBC k hk m hm hkm)
  refine ⟨m, hm, (Literal.combine_compatible hlm φ).trans hlm, ?_⟩
  intro r hr
  rcases Literal.exists_aligned_of_combine hlm hmm hconst (hC m hm m hm hmm) r hr with
    ⟨p, hp, hrp, -, hpm⟩
  have hr' : r = (φ p.1 p.2, p.2) := Prod.ext hrp (Literal.eq_of_mem_aligned_self hpm).symm
  rw [hr']
  exact hG.overlies_right hvars ⟨l, hl, m, hm, hlm, hp⟩ (hconst p hp)

/-!
# Generalizing once more
-/

/-- Where an ancestor meets its descendant, the rule answers with the ancestor. -/
def KeepsAncestors (taxonomy : Option Taxonomy) (A C : Clause) : Prop :=
  ∀ c d, Aligned A C (.const c, .const d) → Taxonomy.IsAncestor taxonomy c d →
    c = d ∨ Taxonomy.rule taxonomy c d = some c

theorem KeepsAncestors.combine_eq (h : A.KeepsAncestors taxonomy C)
    (hG : IsGeneralization (Taxonomy.rule taxonomy) A C G φ) {l m : Literal} (hl : l ∈ A)
    (hm : m ∈ C) (hlm : l.Compatible m) (hover : ∀ p ∈ l.aligned m, Overlies taxonomy p) :
    l.combine φ m = l := by
  have hkept : ∀ p ∈ l.aligned m, φ p.1 p.2 = p.1 := by
    intro p hp
    have haligned : Aligned A C p := ⟨l, hl, m, hm, hlm, hp⟩
    cases hover p hp with
    | var x d => exact hG.settled _ haligned _ rfl
    | @const c d habove =>
        by_cases hcd : c = d
        · rw [hcd]
          exact hG.same (.const d)
        · have hrule := (h c d haligned habove).resolve_left hcd
          exact hG.settled _ haligned _ (settled?_eq_some_iff.mpr (.ancestor hcd hrule))
  have hleft : l.combine φ m = l.combine (fun a _ => a) m := Literal.combine_congr hlm hkept
  rw [hleft, Literal.combine_left hlm]

theorem LiesOver.subset_generalize (h : A.LiesOver taxonomy C)
    (hkeeps : A.KeepsAncestors taxonomy C)
    (hG : IsGeneralization (Taxonomy.rule taxonomy) A C G φ) : A ⊆ G := by
  intro l hl
  rcases h l hl with ⟨m, hm, hlm, hover⟩
  exact (hG.mem_iff l).mpr ⟨l, hl, m, hm, hlm, hkeeps.combine_eq hG hl hm hlm hover⟩

/-- Without two comparable literals in the sample every literal meets the one that it lies over. -/
theorem LiesOver.generalize_subset (h : A.LiesOver taxonomy C)
    (hkeeps : A.KeepsAncestors taxonomy C)
    (hG : IsGeneralization (Taxonomy.rule taxonomy) A C G φ)
    (hC : ∀ l ∈ C, ∀ m ∈ C, l.Comparable m → l = m) : G ⊆ A := by
  intro g hg
  rcases (hG.mem_iff g).mp hg with ⟨l, hl, m, hm, hlm, rfl⟩
  rcases h l hl with ⟨m', hm', hlm', hover⟩
  have hsame : m' = m := hC m' hm' m hm (hlm'.symm.trans hlm).left
  rw [hsame] at hover
  rw [hkeeps.combine_eq hG hl hm hlm hover]
  exact hl

end Lying

end Clause
end ClauseInduction
