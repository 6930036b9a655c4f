import ClauseInduction.Proofs.Learner.Arity
import ClauseInduction.Proofs.Learner.Coverage
import ClauseInduction.Proofs.Learner.Persistence

/-!
# The order of positive samples

A learner that predicts all of its samples at the end has come to a least general clause for them,
whatever their order.  A learner always predicts the sample that it saw first, so where all orders
lead to equivalent hypotheses, all samples are predicted in all orders.  The order matters as soon
as some order loses a sample.
-/

namespace ClauseInduction
namespace Learner

def positives (Cs : List Clause) : List Event :=
  Cs.map fun C => .see C true false

theorem see_mem_positives {Cs : List Clause} {C : Clause} {positive reduce : Bool}
    (h : .see C positive reduce ∈ positives Cs) : C ∈ Cs := by
  rcases List.mem_map.mp h with ⟨D, hD, heq⟩
  cases heq
  exact hD

theorem forall_positives {Cs : List Clause} {P : Clause → Prop} (h : ∀ C ∈ Cs, P C) :
    ∀ e ∈ positives Cs, e.Shows P := by
  intro e he
  rcases List.mem_map.mp he with ⟨C, hC, rfl⟩
  exact h C hC

/-!
# Two orders
-/

theorem rel_hypothesis_positives {L M : Learner} (hnone : L.hypothesis = none)
    (hnone' : M.hypothesis = none) {Cs Ds : List Clause} (hperm : Cs.Perm Ds)
    {R : Clause → Clause → Prop}
    (hR : ∀ H K, (L.run (positives Cs)).hypothesis = some H →
      (M.run (positives Ds)).hypothesis = some K → R H K) :
    Option.Rel R (L.run (positives Cs)).hypothesis (M.run (positives Ds)).hypothesis := by
  cases Cs with
  | nil =>
      rw [hperm.nil_eq.symm]
      change Option.Rel R L.hypothesis M.hypothesis
      rw [hnone, hnone']
      exact .none
  | cons C Cs =>
      have hC : C ∈ Ds := hperm.subset List.mem_cons_self
      have hleft : (L.run (positives (C :: Cs))).hypothesis ≠ none :=
        hypothesis_run_ne_none (Or.inl ⟨C, false, List.mem_cons_self⟩)
      have hright : (M.run (positives Ds)).hypothesis ≠ none :=
        hypothesis_run_ne_none (Or.inl ⟨C, false, List.mem_map_of_mem hC⟩)
      rcases Option.ne_none_iff_exists'.mp hleft with ⟨H, hH⟩
      rcases Option.ne_none_iff_exists'.mp hright with ⟨K, hK⟩
      have hHK := hR H K hH hK
      rw [hH, hK]
      exact .some hHK

/-- A hypothesis that covers all samples subsumes what any order of them leads to. -/
theorem subsumes_of_predicts {L M : Learner} (hL : L.covers = Clause.subsumes)
    (hM : M.covers = Clause.subsumes) (hnone' : M.hypothesis = none) {Cs Ds : List Clause}
    (hperm : Cs.Perm Ds) (hpredicts : ∀ C ∈ Cs, (L.run (positives Cs)).predicts C = true)
    {H K : Clause} (hH : (L.run (positives Cs)).hypothesis = some H)
    (hK : (M.run (positives Ds)).hypothesis = some K) : H.Subsumes K := by
  refine subsumes_hypothesis_of_positives hM hnone' ?_ hK
  intro C reduce hmem
  have hC : C ∈ Cs := hperm.symm.subset (see_mem_positives hmem)
  have hcovers : (L.run (positives Cs)).covers = Clause.subsumes := (L.run_setup _).left.trans hL
  rcases (predicts_iff hcovers).mp (hpredicts C hC) with ⟨H', hH', hHC⟩
  rw [hH] at hH'
  cases hH'
  exact hHC

theorem equivalent_of_predicts {L M : Learner} (hL : L.covers = Clause.subsumes)
    (hM : M.covers = Clause.subsumes) (hnone : L.hypothesis = none) (hnone' : M.hypothesis = none)
    {Cs Ds : List Clause} (hperm : Cs.Perm Ds)
    (hpredicts : ∀ C ∈ Cs, (L.run (positives Cs)).predicts C = true)
    (hpredicts' : ∀ C ∈ Cs, (M.run (positives Ds)).predicts C = true) :
    Option.Rel Clause.Equivalent (L.run (positives Cs)).hypothesis
      (M.run (positives Ds)).hypothesis := by
  apply rel_hypothesis_positives hnone hnone' hperm
  intro H K hH hK
  have hback : ∀ C ∈ Ds, (M.run (positives Ds)).predicts C = true :=
    fun C hC => hpredicts' C (hperm.symm.subset hC)
  rw [Clause.equivalent_iff]
  exact ⟨subsumes_of_predicts hL hM hnone' hperm hpredicts hH hK,
    subsumes_of_predicts hM hL hnone hperm.symm hback hK hH⟩

/-!
# All orders
-/

theorem predicts_first {L : Learner} (hL : L.covers = Clause.subsumes)
    (htaxonomy : L.taxonomy = none) (hnone : L.hypothesis = none) {C : Clause} {Cs : List Clause}
    (hground : ∀ D ∈ C :: Cs, D.Ground) (hdraws : L.DrawsWithinPeriod (positives (C :: Cs))) :
    (L.run (positives (C :: Cs))).predicts C = true := by
  have hadopted : L.see C true false = (.ok .adopted, { L with hypothesis := some C }) :=
    see_eq_of_seen (.adopted hnone)
  have hrest := hdraws.right
  rw [hadopted] at hrest
  change ((L.step (.see C true false)).run (positives Cs)).predicts C = true
  rw [step_eq_of_see_eq hadopted]
  refine predicts_run (L := { L with hypothesis := some C }) hL htaxonomy ?_ hrest ?_
  · exact forall_positives fun D hD => hground D (List.mem_cons_of_mem C hD)
  · refine (predicts_iff ?_).mpr ⟨C, rfl, Clause.Subsumes.refl C⟩
    exact hL

/-- The order does not matter exactly when no order loses a sample, and orders in which no variable
absorbs two different things do not lose any. -/
theorem equivalent_of_perm_iff {L M : Learner} (hL : L.covers = Clause.subsumes)
    (hM : M.covers = Clause.subsumes) (htaxonomy : L.taxonomy = none)
    (htaxonomy' : M.taxonomy = none) (hnone : L.hypothesis = none) (hnone' : M.hypothesis = none)
    {Cs : List Clause} {arity : String → Nat} (hground : ∀ C ∈ Cs, C.Ground)
    (harity : ∀ C ∈ Cs, C.HasArities arity) (hdraws : L.DrawsWithinPeriod (positives Cs))
    (hdraws' : ∀ Ds, Cs.Perm Ds → M.DrawsWithinPeriod (positives Ds)) :
    ((∀ Ds, Cs.Perm Ds → Option.Rel Clause.Equivalent (L.run (positives Cs)).hypothesis
        (M.run (positives Ds)).hypothesis) ↔
      (∀ C ∈ Cs, (L.run (positives Cs)).predicts C = true) ∧
        ∀ Ds, Cs.Perm Ds → ∀ C ∈ Cs, (M.run (positives Ds)).predicts C = true) ∧
    ∀ Ds, Cs.Perm Ds →
      ((∀ C ∈ Cs, (L.run (positives Cs)).predicts C = true) →
        Option.Rel (fun H K => H.subsumes K = true) (L.run (positives Cs)).hypothesis
          (M.run (positives Ds)).hypothesis) ∧
      (L.AbsorbsConsistently (positives Cs) → M.AbsorbsConsistently (positives Ds) →
        Option.Rel Clause.Equivalent (L.run (positives Cs)).hypothesis
          (M.run (positives Ds)).hypothesis) := by
  have hcovers : (L.run (positives Cs)).covers = Clause.subsumes := (L.run_setup _).left.trans hL
  have hcovers' : ∀ Ds, (M.run (positives Ds)).covers = Clause.subsumes :=
    fun Ds => (M.run_setup _).left.trans hM
  refine ⟨⟨?_, ?_⟩, fun Ds hperm => ⟨?_, ?_⟩⟩
  · intro hall
    have hpredicts : ∀ C ∈ Cs, (L.run (positives Cs)).predicts C = true := by
      intro C hC
      -- the order that starts with the sample predicts it, so the equivalent hypothesis does
      have hperm : Cs.Perm (C :: Cs.erase C) := List.perm_cons_erase hC
      have hfirst : (M.run (positives (C :: Cs.erase C))).predicts C = true :=
        predicts_first hM htaxonomy' hnone' (fun D hD => hground D (hperm.symm.subset hD))
          (hdraws' _ hperm)
      exact predicts_of_equivalent hcovers (hcovers' _) (hall _ hperm) hfirst
    refine ⟨hpredicts, fun Ds hperm C hC => ?_⟩
    exact predicts_of_equivalent (hcovers' Ds) hcovers (rel_equivalent_symm (hall Ds hperm))
      (hpredicts C hC)
  · intro hpredicts Ds hperm
    exact equivalent_of_predicts hL hM hnone hnone' hperm hpredicts.left (hpredicts.right Ds hperm)
  · intro hpredicts
    apply rel_hypothesis_positives hnone hnone' hperm
    intro H K hH hK
    exact Clause.subsumes_iff.mpr (subsumes_of_predicts hL hM hnone' hperm hpredicts hH hK)
  · intro habsorb habsorb'
    have haccepted : ∀ {N : Learner} {Es : List Clause}, N.covers = Clause.subsumes →
        N.hypothesis = none → Cs.Perm Es → ∀ C ∈ Cs, N.Accepted (positives Es) C :=
      fun hN hnone hperm C hC => accepted_of_hasArities hN hnone
        (forall_positives fun D hD => harity D (hperm.symm.subset hD))
        (List.mem_map_of_mem (hperm.subset hC))
    apply equivalent_of_predicts hL hM hnone hnone' hperm
    · intro C hC
      exact habsorb.predicts_taken hL htaxonomy hdraws C
        (Or.inr (haccepted hL hnone (List.Perm.refl Cs) C hC))
    · intro C hC
      exact habsorb'.predicts_taken hM htaxonomy' (hdraws' Ds hperm) C
        (Or.inr (haccepted hM hnone' hperm C hC))

def pairSamples : List Clause :=
  [.ofList [⟨true, "p", [.const "a", .const "b"]⟩, ⟨true, "q", [.app ⟨"f", 1⟩ [.const "a"]]⟩],
    .ofList [⟨true, "p", [.const "c", .const "d"]⟩, ⟨true, "q", [.app ⟨"f", 1⟩ [.const "c"]]⟩],
    .ofList [⟨true, "p", [.const "b", .const "d"]⟩, ⟨true, "q", [.const "b"]⟩]]

theorem equivalent_pairSamples_reverse :
    Option.Rel Clause.Equivalent ((new none).run (positives pairSamples)).hypothesis
      ((configure { stem := "X" } (new none)).run (positives pairSamples.reverse)).hypothesis := by
  refine (equivalent_of_perm_iff (L := new none) (M := configure { stem := "X" } (new none)) rfl
    rfl rfl rfl rfl rfl (by decide) (by decide : ∀ C ∈ pairSamples,
      C.HasArities fun name => if name = "p" then 2 else 1) (by decide) ?_).left.mpr
    ⟨by decide, ?_⟩ _ (List.reverse_perm _).symm
  · intro Ds hperm
    have hall : ∀ Ds ∈ pairSamples.permutations', (configure { stem := "X" }
        (new none)).DrawsWithinPeriod (positives Ds) := by decide
    exact hall Ds (List.mem_permutations'.mpr hperm.symm)
  · intro Ds hperm
    have hall : ∀ Ds ∈ pairSamples.permutations', ∀ C ∈ pairSamples,
        ((configure { stem := "X" } (new none)).run (positives Ds)).predicts C = true := by decide
    exact hall Ds (List.mem_permutations'.mpr hperm.symm)

/-- Seen last, the edge between different ends is lost: the variable for the ends of the two loops
absorbs both of its ends.  Seen first, it is kept. -/
theorem exists_order_dependence : ¬ ∀ (Cs Ds : List Clause) (arity : String → Nat), Cs.Perm Ds →
    (∀ C ∈ Cs, C.Ground) → (∀ C ∈ Cs, C.HasArities arity) →
      Option.Rel Clause.Equivalent ((new none).run (positives Cs)).hypothesis
        ((new none).run (positives Ds)).hypothesis := by
  intro h
  have hrel := h
    [.ofList [⟨true, "p", [.const "a", .const "a"]⟩],
      .ofList [⟨true, "p", [.const "b", .const "b"]⟩],
      .ofList [⟨true, "p", [.const "c", .const "d"]⟩]]
    [.ofList [⟨true, "p", [.const "c", .const "d"]⟩],
      .ofList [⟨true, "p", [.const "a", .const "a"]⟩],
      .ofList [⟨true, "p", [.const "b", .const "b"]⟩]]
    (fun _ => 2) (by decide) (by decide) (by decide)
  have hpredicts := predicts_of_equivalent rfl rfl hrel
    (by decide : _ = true) (C := .ofList [⟨true, "p", [.const "c", .const "d"]⟩])
  revert hpredicts
  decide

end Learner
end ClauseInduction
