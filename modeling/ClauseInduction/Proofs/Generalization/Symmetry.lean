import Mathlib.Data.List.Zip
import ClauseInduction.Proofs.Generalization.Renaming

/-!
# Exchanging the inputs

The two inputs of a generalization play the same part when the ancestor rule does not look at the
order of its constants.  A choice of terms for the pairs of one order is a choice for the swapped
pairs of the other, so generalizations in either order, of the literals in any order, differ by
the names of their new variables only.
-/

namespace ClauseInduction

/-!
# Swapped pairs
-/

namespace Term

theorem SameShape.symm {s t : Term} (h : SameShape s t) : SameShape t s := by
  rcases sameShape_iff.mp h with ⟨f, ss, ts, rfl, rfl, hlength⟩
  exact sameShape_iff.mpr ⟨f, ts, ss, rfl, rfl, hlength.symm⟩

theorem combine_swap (φ : Term → Term → Term) (s t : Term) :
    combine (fun a b => φ b a) t s = combine φ s t := by
  induction s, t using pairInduction with
  | leaf s t hshape =>
      rw [combine_of_not_sameShape hshape, combine_of_not_sameShape (mt SameShape.symm hshape)]
  | app f ss ts hlength ih =>
      rw [combine_app hlength, combine_app hlength.symm, ← List.zip_swap, List.map_map]
      congr 1
      exact List.map_congr_left ih

theorem mem_aligned_swap {s t : Term} {p : Term × Term} :
    p ∈ aligned t s ↔ p.swap ∈ aligned s t := by
  induction s, t using pairInduction with
  | leaf s t hshape =>
      rw [aligned_of_not_sameShape hshape,
        aligned_of_not_sameShape (mt SameShape.symm hshape), List.mem_singleton,
        List.mem_singleton, Prod.swap_eq_iff_eq_swap]
      rfl
  | app f ss ts hlength ih =>
      rw [aligned_app hlength, aligned_app hlength.symm, mem_alignedList, mem_alignedList,
        ← List.zip_swap]
      constructor
      · intro h
        rcases h with ⟨q', hq', hp⟩
        rcases List.mem_map.mp hq' with ⟨q, hq, rfl⟩
        exact ⟨q, hq, (ih q hq).mp hp⟩
      · intro h
        rcases h with ⟨q, hq, hp⟩
        exact ⟨q.swap, List.mem_map_of_mem hq, (ih q hq).mpr hp⟩

end Term

namespace Literal

theorem combine_swap {l m : Literal} (h : l.Compatible m) (φ : Term → Term → Term) :
    m.combine (fun a b => φ b a) l = l.combine φ m := by
  refine eq_of_toTerm_eq h.left.left.symm ?_
  rw [toTerm_combine h, toTerm_combine h.symm, Term.combine_swap]

theorem mem_aligned_swap {l m : Literal} (h : l.Compatible m) {p : Term × Term} :
    p ∈ m.aligned l ↔ p.swap ∈ l.aligned m := by
  rw [aligned_eq h, aligned_eq h.symm, Term.mem_aligned_swap]

end Literal

namespace PairTable

theorem Decides.symm {rule : AncestorRule} (hrule : ∀ a b, rule a b = rule b a) {s t u : Term}
    (h : Decides rule s t u) : Decides rule t s u := by
  cases h with
  | same => exact .same s
  | ancestor hab hc => exact .ancestor hab.symm ((hrule _ _).trans hc)
  | left x c => exact .right c x
  | right c x => exact .left x c

theorem settled?_comm {rule : AncestorRule} (hrule : ∀ a b, rule a b = rule b a) (s t : Term) :
    settled? rule s t = settled? rule t s := by
  apply Option.ext
  intro u
  rw [settled?_eq_some_iff, settled?_eq_some_iff]
  exact ⟨Decides.symm hrule, Decides.symm hrule⟩

end PairTable

/-!
# Exchanged generalizations
-/

namespace Clause

theorem Aligned.swap {A B : Clause} {p : Term × Term} (h : Aligned A B p) :
    Aligned B A p.swap := by
  rcases h with ⟨l, hl, m, hm, hlm, hp⟩
  exact ⟨m, hm, l, hl, hlm.symm, (Literal.mem_aligned_swap hlm).mpr hp⟩

theorem compatible_swap {A B : Clause}
    (h : ∀ l ∈ A, ∀ m ∈ B, l.Comparable m → l.Compatible m) :
    ∀ m ∈ B, ∀ l ∈ A, m.Comparable l → m.Compatible l :=
  fun m hm l hl hml => (h l hl m hm hml.symm).symm

section Exchange

variable {rule : AncestorRule} {A B G : Clause} {φ : Term → Term → Term}

theorem IsGeneralization.symm (hrule : ∀ a b, rule a b = rule b a)
    (h : IsGeneralization rule A B G φ) : IsGeneralization rule B A G fun s t => φ t s where
  compatible := compatible_swap h.compatible
  mem_iff := by
    intro g
    rw [h.mem_iff]
    constructor
    · intro hg
      rcases hg with ⟨l, hl, m, hm, hlm, rfl⟩
      exact ⟨m, hm, l, hl, hlm.symm, Literal.combine_swap hlm φ⟩
    · intro hg
      rcases hg with ⟨m, hm, l, hl, hml, rfl⟩
      exact ⟨l, hl, m, hm, hml.symm, (Literal.combine_swap hml.symm φ).symm⟩
  same := h.same
  settled := by
    intro p hp u hu
    rw [PairTable.settled?_comm hrule] at hu
    exact h.settled p.swap hp.swap u hu

theorem NamesApart.symm (hrule : ∀ a b, rule a b = rule b a) (h : NamesApart rule A B φ) :
    NamesApart rule B A fun s t => φ t s where
  minted := by
    intro p hp hnone
    rw [PairTable.settled?_comm hrule] at hnone
    rcases h.minted p.swap hp.swap hnone with ⟨x, hx, hA, hB⟩
    exact ⟨x, hx, hB, hA⟩
  apart := by
    intro p q hp hq hpnone hqnone heq
    rw [PairTable.settled?_comm hrule] at hpnone hqnone
    exact Prod.swap_injective (h.apart p.swap q.swap hp.swap hq.swap hpnone hqnone heq)

end Exchange

theorem generalize_ok_iff_swap (rule : AncestorRule) (A B : Clause) (supply supply' : NameSupply) :
    (∃ G, (A.generalize rule B supply).1 = .ok G) ↔
      ∃ G', (B.generalize rule A supply').1 = .ok G' := by
  rw [generalize_ok_iff, generalize_ok_iff]
  exact ⟨compatible_swap, compatible_swap⟩

theorem SameLiterals.renamedBy {C C' : Clause} (h : C.SameLiterals C') : RenamedBy id C C' :=
  h.mem_iff_exists_subst_var

theorem IsGeneralization.isVariant_of_sameLiterals {rule : AncestorRule} {A B A' B' G G' : Clause}
    {φ φ' : Term → Term → Term} (hG : IsGeneralization rule A B G φ)
    (hG' : IsGeneralization rule A' B' G' φ') (hapart : NamesApart rule A B φ)
    (hapart' : NamesApart rule A' B' φ') (hA : A.SameLiterals A') (hB : B.SameLiterals B') :
    G.IsVariant G' :=
  hG.isVariant hG' hapart hapart' (fun _ _ _ _ h => h) hA.renamedBy hB.renamedBy

theorem generalize_ok_or_error (rule : AncestorRule) (A B : Clause) (supply : NameSupply) :
    (∃ G, (A.generalize rule B supply).1 = .ok G) ∨
      ∃ e, (A.generalize rule B supply).1 = .error e := by
  cases (A.generalize rule B supply).1 with
  | error e => exact Or.inr ⟨e, rfl⟩
  | ok G => exact Or.inl ⟨G, rfl⟩

/-- Up to renaming, a generalization depends on the two sets of literals alone: neither their
order, nor the order of the inputs, nor the names that the supply issues matter. -/
theorem isVariant_generalize_of_sameLiterals (rule : AncestorRule)
    (hrule : ∀ a b, rule a b = rule b a) {A B A' B' : Clause} (hA : A.SameLiterals A')
    (hB : B.SameLiterals B') (s₁ s₂ s₃ : NameSupply)
    (h₁ : (A.generalize rule B s₁).2.count < s₁.count + NameSupply.period)
    (h₂ : (A'.generalize rule B' s₂).2.count < s₂.count + NameSupply.period)
    (h₃ : (B'.generalize rule A' s₃).2.count < s₃.count + NameSupply.period) :
    (∃ G₁ G₂ G₃, (A.generalize rule B s₁).1 = .ok G₁ ∧ (A'.generalize rule B' s₂).1 = .ok G₂ ∧
      (B'.generalize rule A' s₃).1 = .ok G₃ ∧
      ∀ X ∈ [G₁, G₂, G₃], ∀ Y ∈ [G₁, G₂, G₃], X.isVariant Y = true) ∨
    ∃ e₁ e₂ e₃, (A.generalize rule B s₁).1 = .error e₁ ∧
      (A'.generalize rule B' s₂).1 = .error e₂ ∧ (B'.generalize rule A' s₃).1 = .error e₃ := by
  have hlist := generalize_ok_iff_of_renamedBy rule s₁ s₂ hA.renamedBy hB.renamedBy
  have hswap := hlist.trans (generalize_ok_iff_swap rule A' B' s₂ s₃)
  by_cases hok : ∃ G₁, (A.generalize rule B s₁).1 = .ok G₁
  · rcases hok with ⟨G₁, hG₁⟩
    rcases hlist.mp ⟨G₁, hG₁⟩ with ⟨G₂, hG₂⟩
    rcases hswap.mp ⟨G₁, hG₁⟩ with ⟨G₃, hG₃⟩
    rcases exists_isGeneralization (Prod.ext hG₁ rfl) with ⟨φ₁, hgen₁, hapart₁⟩
    rcases exists_isGeneralization (Prod.ext hG₂ rfl) with ⟨φ₂, hgen₂, hapart₂⟩
    rcases exists_isGeneralization (Prod.ext hG₃ rfl) with ⟨φ₃, hgen₃, hapart₃⟩
    have hvariant₂ : G₁.IsVariant G₂ :=
      hgen₁.isVariant_of_sameLiterals hgen₂ (hapart₁ h₁.le) (hapart₂ h₂.le) hA hB
    have hvariant₃ : G₁.IsVariant G₃ :=
      hgen₁.isVariant_of_sameLiterals (hgen₃.symm hrule) (hapart₁ h₁.le)
        ((hapart₃ h₃.le).symm hrule) hA hB
    have hvariant : ∀ X ∈ [G₁, G₂, G₃], G₁.IsVariant X := by
      simp [IsVariant.refl, hvariant₂, hvariant₃]
    refine Or.inl ⟨G₁, G₂, G₃, hG₁, hG₂, hG₃, ?_⟩
    intro X hX Y hY
    exact isVariant_iff.mpr ((hvariant X hX).symm.trans (hvariant Y hY))
  · rcases (generalize_ok_or_error rule A B s₁).resolve_left hok with ⟨e₁, he₁⟩
    rcases (generalize_ok_or_error rule A' B' s₂).resolve_left (mt hlist.mpr hok) with ⟨e₂, he₂⟩
    rcases (generalize_ok_or_error rule B' A' s₃).resolve_left (mt hswap.mpr hok) with ⟨e₃, he₃⟩
    exact Or.inr ⟨e₁, e₂, e₃, he₁, he₂, he₃⟩

def petRule : AncestorRule := fun a b =>
  if a = "cat" ∧ b = "dog" ∨ a = "dog" ∧ b = "cat" then some "pet" else none

theorem petRule_comm (a b : String) : petRule a b = petRule b a := by
  unfold petRule
  congr 1
  grind

def annOwns : Clause :=
  ofList [⟨true, "owns", [.var "V1", .const "dog"]⟩, ⟨true, "owns", [.const "ann", .const "dog"]⟩,
    ⟨true, "owns", [.const "ann", .const "cat"]⟩,
    ⟨false, "likes", [.app ⟨"friend", 1⟩ [.var "V1"], .const "ann"]⟩]

def bobOwns : Clause :=
  ofList [⟨true, "owns", [.const "bob", .const "cat"]⟩, ⟨true, "owns", [.const "bob", .const "dog"]⟩,
    ⟨true, "owns", [.var "Y0", .const "dog"]⟩,
    ⟨false, "likes", [.app ⟨"friend", 1⟩ [.const "bob"], .var "Y0"]⟩]

def reversed (C : Clause) : Clause :=
  ofList C.literals.reverse

/-- Variables of both inputs are absorbed, one looks like a new name and is skipped, some literals
collapse, and the numbers of the last supply go round. -/
theorem isVariant_generalize_pets :
    (∃ G₁ G₂ G₃, (annOwns.generalize petRule bobOwns default).1 = .ok G₁ ∧
      ((reversed annOwns).generalize petRule (reversed bobOwns) (.ofStem "W")).1 = .ok G₂ ∧
      ((reversed bobOwns).generalize petRule (reversed annOwns)
        ⟨"Y", NameSupply.period - 1⟩).1 = .ok G₃ ∧
      ∀ X ∈ [G₁, G₂, G₃], ∀ Y ∈ [G₁, G₂, G₃], X.isVariant Y = true) ∧
    (annOwns.generalize petRule bobOwns default).2.next = "V4" ∧
    ((reversed bobOwns).generalize petRule (reversed annOwns)
      ⟨"Y", NameSupply.period - 1⟩).2.next = "Y2" := by
  have hok : (annOwns.generalize petRule bobOwns default).1.isOk = true := by decide
  have hann : annOwns.SameLiterals (reversed annOwns) := by decide
  have hbob : bobOwns.SameLiterals (reversed bobOwns) := by decide
  rcases isVariant_generalize_of_sameLiterals petRule petRule_comm hann hbob default (.ofStem "W")
    ⟨"Y", NameSupply.period - 1⟩ (by decide) (by decide) (by decide) with hvariant | herror
  · exact ⟨hvariant, by decide, by decide⟩
  · rcases herror with ⟨e, -, -, he, -, -⟩
    rw [he] at hok
    cases hok

end Clause

end ClauseInduction
