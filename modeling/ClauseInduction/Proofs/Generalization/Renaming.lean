import ClauseInduction.Proofs.Generalization.Bounds
import ClauseInduction.Proofs.Variant

/-!
# Generalizations up to renaming

Two generalizations differ only in the names of their variables when their aligned pairs
correspond: the old variables are renamed by the correspondence, and the new ones stand for the
corresponding pairs.
-/

namespace ClauseInduction
namespace Clause

open PairTable

/-!
# Corresponding pairs
-/

/-- The aligned pairs of `A` and `B` go to aligned pairs of `A'` and `B'`, and the terms that they
decide are renamed. -/
structure Follows (rule : AncestorRule) (A B A' B' : Clause) (ρ : String → String)
    (e : Term × Term → Term × Term) : Prop where
  aligned : ∀ p, Aligned A B p → Aligned A' B' (e p)
  settled : ∀ p, Aligned A B p →
    settled? rule (e p).1 (e p).2 = (settled? rule p.1 p.2).map (Term.subst (relabel ρ))

/-- The aligned pairs of `A'` and `B'` under `e` are those of `A` and `B` with their variables
renamed, as far as the terms that stand for them are concerned. -/
structure Corresponds (rule : AncestorRule) (A B A' B' : Clause) (ρ : String → String)
    (e : Term × Term → Term × Term) : Prop extends Follows rule A B A' B' ρ e where
  injective : InjectiveOn ρ (A.vars ++ B.vars)
  old : ∀ x ∈ A.vars ++ B.vars, ρ x ∈ A'.vars ++ B'.vars
  apart : ∀ p q, Aligned A B p → Aligned A B q → e p = e q → p = q

theorem Aligned.vars_subset_append {A B : Clause} {p : Term × Term} (h : Aligned A B p) :
    p.1.vars ⊆ A.vars ++ B.vars ∧ p.2.vars ⊆ A.vars ++ B.vars := by
  rcases h.vars_subset with ⟨hleft, hright⟩
  constructor
  · intro x hx
    exact List.mem_append_left _ (hleft hx)
  · intro x hx
    exact List.mem_append_right _ (hright hx)

theorem Aligned.vars_settled_subset {rule : AncestorRule} {A B : Clause} {p : Term × Term}
    {u : Term} (h : Aligned A B p) (hu : settled? rule p.1 p.2 = some u) :
    u.vars ⊆ A.vars ++ B.vars := by
  intro x hx
  rcases settled?_cases h.not_sameShape hu with ⟨y, rfl, hkeeps⟩ | ⟨c, rfl, -⟩ | ⟨a, b, c, -, -, rfl⟩
  · rw [List.mem_singleton.mp hx]
    rcases hkeeps.mem_vars with hy | hy
    · exact h.vars_subset_append.left hy
    · exact h.vars_subset_append.right hy
  · cases hx
  · cases hx

section Naming

variable {rule : AncestorRule} {A B A' B' G G' : Clause} {φ φ' : Term → Term → Term}
variable {ρ : String → String} {e : Term × Term → Term × Term}

def Minted (rule : AncestorRule) (A B : Clause) (φ : Term → Term → Term) (p : Term × Term)
    (x : String) : Prop :=
  Aligned A B p ∧ settled? rule p.1 p.2 = none ∧ φ p.1 p.2 = .var x

theorem NamesApart.minted_or_mem (hapart : NamesApart rule A B φ)
    (hG : IsGeneralization rule A B G φ) {p : Term × Term} (hp : Aligned A B p) {x : String}
    (hx : x ∈ (φ p.1 p.2).vars) : Minted rule A B φ p x ∨ x ∈ A.vars ++ B.vars := by
  cases hsettled : settled? rule p.1 p.2 with
  | none =>
      rcases hapart.minted p hp hsettled with ⟨y, hy, -⟩
      rw [hy] at hx
      rw [← List.mem_singleton.mp hx] at hy
      exact Or.inl ⟨hp, hsettled, hy⟩
  | some u =>
      rw [hG.settled p hp u hsettled] at hx
      exact Or.inr (hp.vars_settled_subset hsettled hx)

theorem Minted.not_mem (hapart : NamesApart rule A B φ) {p : Term × Term} {x : String}
    (h : Minted rule A B φ p x) : x ∉ A.vars ++ B.vars := by
  rcases h with ⟨hp, hnone, hx⟩
  rcases hapart.minted p hp hnone with ⟨y, hy, hyA, hyB⟩
  rw [hx] at hy
  cases hy
  intro hmem
  rcases List.mem_append.mp hmem with hA | hB
  · exact hyA hA
  · exact hyB hB

theorem Minted.pair_eq (hapart : NamesApart rule A B φ) {p q : Term × Term} {x : String}
    (hp : Minted rule A B φ p x) (hq : Minted rule A B φ q x) : p = q := by
  rcases hp with ⟨hp, hpnone, hpx⟩
  rcases hq with ⟨hq, hqnone, hqx⟩
  exact hapart.apart p q hp hq hpnone hqnone (hpx.trans hqx.symm)

theorem Minted.follows (hfollows : Follows rule A B A' B' ρ e) (hvars' : MintsVars rule A' B' φ')
    {p : Term × Term} {x : String} (h : Minted rule A B φ p x) :
    ∃ y, Minted rule A' B' φ' (e p) y := by
  rcases h with ⟨hp, hnone, -⟩
  have hnone' : settled? rule (e p).1 (e p).2 = none := by
    rw [hfollows.settled p hp, hnone]
    rfl
  rcases hvars' (e p) (hfollows.aligned p hp) hnone' with ⟨y, hy⟩
  exact ⟨y, hfollows.aligned p hp, hnone', hy⟩

/-- The renaming `ρ'` goes on where `ρ` stops: it sends new variables to the new variables of the
corresponding pairs. -/
structure Extends (rule : AncestorRule) (A B A' B' : Clause) (φ φ' : Term → Term → Term)
    (ρ : String → String) (e : Term × Term → Term × Term) (ρ' : String → String) : Prop where
  old : ∀ x ∈ A.vars ++ B.vars, ρ' x = ρ x
  minted : ∀ p x, Minted rule A B φ p x → Minted rule A' B' φ' (e p) (ρ' x)

theorem Follows.exists_extends (hfollows : Follows rule A B A' B' ρ e)
    (hapart : NamesApart rule A B φ) (hvars' : MintsVars rule A' B' φ') :
    ∃ ρ', Extends rule A B A' B' φ φ' ρ e ρ' := by
  have hname : ∀ x, ∃ y, (x ∈ A.vars ++ B.vars → y = ρ x) ∧
      ∀ p, Minted rule A B φ p x → Minted rule A' B' φ' (e p) y := by
    intro x
    by_cases h : ∃ p, Minted rule A B φ p x
    -- the pair of a new variable is unique, so its name on the other side is too
    · rcases h with ⟨p, hp⟩
      rcases hp.follows hfollows hvars' with ⟨y, hy⟩
      refine ⟨y, fun hx => absurd hx (hp.not_mem hapart), ?_⟩
      intro q hq
      rw [hq.pair_eq hapart hp]
      exact hy
    · exact ⟨ρ x, fun _ => rfl, fun p hp => absurd ⟨p, hp⟩ h⟩
  choose ρ' hold hminted using hname
  exact ⟨ρ', hold, fun p x => hminted x p⟩

theorem Extends.subst_eq {ρ' : String → String} (h : Extends rule A B A' B' φ φ' ρ e ρ')
    (hfollows : Follows rule A B A' B' ρ e) (hG : IsGeneralization rule A B G φ)
    (hG' : IsGeneralization rule A' B' G' φ') (hapart : NamesApart rule A B φ)
    {p : Term × Term} (hp : Aligned A B p) :
    (φ p.1 p.2).subst (relabel ρ') = φ' (e p).1 (e p).2 := by
  cases hsettled : settled? rule p.1 p.2 with
  | none =>
      rcases hapart.minted p hp hsettled with ⟨x, hx, -⟩
      rcases h.minted p x ⟨hp, hsettled, hx⟩ with ⟨-, -, hx'⟩
      rw [hx, hx']
      rfl
  | some u =>
      have hsettled' : settled? rule (e p).1 (e p).2 = some (u.subst (relabel ρ)) := by
        rw [hfollows.settled p hp, hsettled]
        rfl
      rw [hG.settled p hp u hsettled, hG'.settled (e p) (hfollows.aligned p hp) _ hsettled']
      apply Term.subst_congr
      intro x hx
      exact congrArg Term.var (h.old x (hp.vars_settled_subset hsettled hx))

/-- Old and new variables stay apart from each other and among themselves. -/
theorem Extends.eq_of_eq {ρ' : String → String} (h : Extends rule A B A' B' φ φ' ρ e ρ')
    (hcorr : Corresponds rule A B A' B' ρ e) (hG : IsGeneralization rule A B G φ)
    (hapart : NamesApart rule A B φ) (hapart' : NamesApart rule A' B' φ')
    {p q : Term × Term} (hp : Aligned A B p) (hq : Aligned A B q) {x y : String}
    (hx : x ∈ (φ p.1 p.2).vars) (hy : y ∈ (φ q.1 q.2).vars) (hxy : ρ' x = ρ' y) : x = y := by
  -- new variables meet new ones only, since the new ones of the other side are not old there
  rcases hapart.minted_or_mem hG hp hx with hpx | hx
  · rcases hapart.minted_or_mem hG hq hy with hqy | hy
    · have hpx' := h.minted p x hpx
      rw [hxy] at hpx'
      have hpq : e p = e q := hpx'.pair_eq hapart' (h.minted q y hqy)
      rw [hcorr.apart p q hp hq hpq] at hpx
      have hvar : Term.var x = .var y := hpx.right.right.symm.trans hqy.right.right
      exact Term.var.inj hvar
    · have hpx' := (h.minted p x hpx).not_mem hapart'
      rw [hxy, h.old y hy] at hpx'
      exact absurd (hcorr.old y hy) hpx'
  · rcases hapart.minted_or_mem hG hq hy with hqy | hy
    · have hqy' := (h.minted q y hqy).not_mem hapart'
      rw [← hxy, h.old x hx] at hqy'
      exact absurd (hcorr.old x hx) hqy'
    · rw [h.old x hx, h.old y hy] at hxy
      exact hcorr.injective x hx y hy hxy

theorem Corresponds.isVariant (hcorr : Corresponds rule A B A' B' ρ e)
    (hG : IsGeneralization rule A B G φ) (hG' : IsGeneralization rule A' B' G' φ')
    (hapart : NamesApart rule A B φ) (hapart' : NamesApart rule A' B' φ')
    (hliterals : ∀ g, g ∈ G' ↔ ∃ l ∈ A, ∃ m ∈ B, l.Compatible m ∧
      l.combine (fun a b => φ' (e (a, b)).1 (e (a, b)).2) m = g) : G.IsVariant G' := by
  rcases hcorr.toFollows.exists_extends hapart hapart'.mintsVars with ⟨ρ', hρ'⟩
  have hterm : ∀ l ∈ A, ∀ m ∈ B, l.Compatible m → (l.combine φ m).subst (relabel ρ') =
      l.combine (fun a b => φ' (e (a, b)).1 (e (a, b)).2) m := by
    intro l hl m hm hlm
    rw [Literal.subst_combine hlm]
    apply Literal.combine_congr hlm
    intro p hp
    exact hρ'.subst_eq hcorr.toFollows hG hG' hapart ⟨l, hl, m, hm, hlm, hp⟩
  have hsource : ∀ x ∈ G.vars, ∃ p, Aligned A B p ∧ x ∈ (φ p.1 p.2).vars := by
    intro x hx
    rcases mem_vars.mp hx with ⟨g, hg, hxg⟩
    rcases (hG.mem_iff g).mp hg with ⟨l, hl, m, hm, hlm, rfl⟩
    rcases (Literal.mem_vars_combine hlm).mp hxg with ⟨p, hp, hxp⟩
    exact ⟨p, ⟨l, hl, m, hm, hlm, hp⟩, hxp⟩
  refine ⟨ρ', ?_, ?_⟩
  · intro x hx y hy hxy
    rcases hsource x hx with ⟨p, hp, hxp⟩
    rcases hsource y hy with ⟨q, hq, hyq⟩
    exact hρ'.eq_of_eq hcorr hG hapart hapart' hp hq hxp hyq hxy
  · intro g'
    rw [hliterals]
    constructor
    · intro h
      rcases h with ⟨l, hl, m, hm, hlm, hg'⟩
      exact ⟨l.combine φ m, (hG.mem_iff _).mpr ⟨l, hl, m, hm, hlm, rfl⟩,
        (hterm l hl m hm hlm).trans hg'⟩
    · intro h
      rcases h with ⟨g, hg, hg'⟩
      rcases (hG.mem_iff g).mp hg with ⟨l, hl, m, hm, hlm, rfl⟩
      exact ⟨l, hl, m, hm, hlm, (hterm l hl m hm hlm).symm.trans hg'⟩

end Naming

/-!
# Renamed inputs
-/

theorem settled?_subst_relabel (rule : AncestorRule) {ρ : String → String} {s t : Term}
    (h : s.subst (relabel ρ) = t.subst (relabel ρ) → s = t) :
    settled? rule (s.subst (relabel ρ)) (t.subst (relabel ρ)) =
      (settled? rule s t).map (Term.subst (relabel ρ)) := by
  unfold settled?
  by_cases hst : s = t
  · rw [if_pos hst, if_pos (congrArg _ hst)]
    rfl
  · rw [if_neg hst, if_neg (fun heq => hst (h heq))]
    cases s with
    | var x => cases t <;> rfl
    | const a =>
        cases t with
        | var y => rfl
        | const b =>
            show (rule a b).map Term.const =
              ((rule a b).map Term.const).map (Term.subst (relabel ρ))
            rw [Option.map_map]
            rfl
        | app g ts => rfl
    | app f ss => cases t <;> rfl

def RenamedBy (ρ : String → String) (C C' : Clause) : Prop :=
  ∀ m, m ∈ C' ↔ ∃ l ∈ C, l.subst (relabel ρ) = m

theorem RenamedBy.mem_vars {ρ : String → String} {C C' : Clause} (h : RenamedBy ρ C C')
    {x : String} (hx : x ∈ C.vars) : ρ x ∈ C'.vars := by
  rcases Clause.mem_vars.mp hx with ⟨l, hl, hxl⟩
  refine Clause.mem_vars.mpr ⟨l.subst (relabel ρ), (h _).mpr ⟨l, hl, rfl⟩, ?_⟩
  exact Literal.mem_vars_subst.mpr ⟨x, hxl, List.mem_singleton.mpr rfl⟩

theorem renamedBy_of_ground {C C' : Clause} (hground : C.Ground) (h : C.SameLiterals C')
    (ρ : String → String) : RenamedBy ρ C C' := by
  intro m
  constructor
  · intro hm
    exact ⟨m, h.right m hm, hground.subst_eq (h.right m hm) _⟩
  · intro hm
    rcases hm with ⟨l, hl, rfl⟩
    rw [hground.subst_eq hl]
    exact h.left l hl

theorem follows_of_subst (rule : AncestorRule) {A B A' B' : Clause} {ρ : String → String}
    (hA : ∀ l ∈ A, l.subst (relabel ρ) ∈ A') (hB : ∀ m ∈ B, m.subst (relabel ρ) ∈ B')
    (heq : ∀ p, Aligned A B p → p.1.subst (relabel ρ) = p.2.subst (relabel ρ) → p.1 = p.2) :
    Follows rule A B A' B' ρ fun p => (p.1.subst (relabel ρ), p.2.subst (relabel ρ)) where
  aligned := by
    intro p hp
    rcases hp with ⟨l, hl, m, hm, hlm, hp⟩
    exact ⟨_, hA l hl, _, hB m hm, Literal.compatible_relabel.mpr hlm,
      (Literal.mem_aligned_relabel hlm).mpr ⟨p, hp, rfl⟩⟩
  settled := fun p hp => settled?_subst_relabel rule (heq p hp)

theorem corresponds_of_renamedBy (rule : AncestorRule) {A B A' B' : Clause}
    {ρ : String → String} (hρ : InjectiveOn ρ (A.vars ++ B.vars)) (hA : RenamedBy ρ A A')
    (hB : RenamedBy ρ B B') : Corresponds rule A B A' B' ρ
      fun p => (p.1.subst (relabel ρ), p.2.subst (relabel ρ)) where
  toFollows := follows_of_subst rule (fun l hl => (hA _).mpr ⟨l, hl, rfl⟩)
    (fun m hm => (hB _).mpr ⟨m, hm, rfl⟩) fun p hp =>
      Term.eq_of_subst_relabel_eq hρ hp.vars_subset_append.left hp.vars_subset_append.right
  injective := hρ
  old := by
    intro x hx
    rcases List.mem_append.mp hx with hx | hx
    · exact List.mem_append_left _ (hA.mem_vars hx)
    · exact List.mem_append_right _ (hB.mem_vars hx)
  apart := by
    intro p q hp hq hpq
    rcases Prod.mk.inj hpq with ⟨hleft, hright⟩
    have hleft' := Term.eq_of_subst_relabel_eq hρ hp.vars_subset_append.left
      hq.vars_subset_append.left hleft
    have hright' := Term.eq_of_subst_relabel_eq hρ hp.vars_subset_append.right
      hq.vars_subset_append.right hright
    exact Prod.ext hleft' hright'

theorem IsGeneralization.isVariant {rule : AncestorRule} {A B A' B' G G' : Clause}
    {φ φ' : Term → Term → Term} (hG : IsGeneralization rule A B G φ)
    (hG' : IsGeneralization rule A' B' G' φ') (hapart : NamesApart rule A B φ)
    (hapart' : NamesApart rule A' B' φ') {ρ : String → String}
    (hρ : InjectiveOn ρ (A.vars ++ B.vars)) (hA : RenamedBy ρ A A') (hB : RenamedBy ρ B B') :
    G.IsVariant G' := by
  refine (corresponds_of_renamedBy rule hρ hA hB).isVariant hG hG' hapart hapart' ?_
  intro g
  rw [hG'.mem_iff]
  constructor
  · intro h
    rcases h with ⟨l', hl', m', hm', hlm', hg⟩
    rcases (hA l').mp hl' with ⟨l, hl, rfl⟩
    rcases (hB m').mp hm' with ⟨m, hm, rfl⟩
    have hlm := Literal.compatible_relabel.mp hlm'
    exact ⟨l, hl, m, hm, hlm, (Literal.combine_relabel hlm φ' ρ ρ).symm.trans hg⟩
  · intro h
    rcases h with ⟨l, hl, m, hm, hlm, hg⟩
    exact ⟨_, (hA _).mpr ⟨l, hl, rfl⟩, _, (hB _).mpr ⟨m, hm, rfl⟩,
      Literal.compatible_relabel.mpr hlm, (Literal.combine_relabel hlm φ' ρ ρ).trans hg⟩

theorem generalize_ok_iff_of_renamedBy (rule : AncestorRule) {A B A' B' : Clause}
    (supply supply' : NameSupply) {ρ : String → String} (hA : RenamedBy ρ A A')
    (hB : RenamedBy ρ B B') :
    (∃ G, (A.generalize rule B supply).1 = .ok G) ↔
      ∃ G', (A'.generalize rule B' supply').1 = .ok G' := by
  rw [generalize_ok_iff, generalize_ok_iff]
  constructor
  · intro h l' hl' m' hm' hlm'
    rcases (hA l').mp hl' with ⟨l, hl, rfl⟩
    rcases (hB m').mp hm' with ⟨m, hm, rfl⟩
    exact Literal.compatible_relabel.mpr (h l hl m hm hlm')
  · intro h l hl m hm hlm
    apply Literal.compatible_relabel.mp
    exact h _ ((hA _).mpr ⟨l, hl, rfl⟩) _ ((hB _).mpr ⟨m, hm, rfl⟩) hlm

end Clause
end ClauseInduction
