import ClauseInduction.Proofs.Generalization.Lifting
import ClauseInduction.Proofs.Learner.Run

/-!
# Predictions last

A ground sample brings no variables, so a variable that absorbs its constants comes from the
hypothesis, and a generalization can be read back as the old hypothesis even when it cannot be read
back as the sample.  Without a taxonomy each hypothesis thus subsumes the one before, and what a
learner predicts once it predicts ever after.
-/

namespace ClauseInduction
namespace Learner

/-!
# One call
-/

theorem Seen.subsumesUpTo_before {L M : Learner} {C : Clause} {positive reduce : Bool}
    {result : Except ArityClash Outcome} (hL : L.covers = Clause.subsumes)
    (hseen : L.Seen C reduce positive result M) (hground : C.Ground)
    (hdraws : M.supply.count ≤ L.supply.count + NameSupply.period) {H : Clause}
    (hH : L.hypothesis = some H) :
    ∃ H', M.hypothesis = some H' ∧ H'.SubsumesUpTo L.taxonomy H := by
  have hsame : H.SubsumesUpTo L.taxonomy H := (Clause.Subsumes.refl H).upTo L.taxonomy
  cases hseen with
  | ignored => exact ⟨H, hH, hsame⟩
  | adopted hnone =>
      rw [hnone] at hH
      cases hH
  | covered hsome hcovers => exact ⟨H, hH, hsame⟩
  | failed hsome hcovers hgen => exact ⟨H, hH, hsame⟩
  | @generalized K G supply hsome hcovers hgen =>
      rw [hsome] at hH
      cases hH
      rcases Clause.exists_isGeneralization hgen with ⟨φ, hG, hapart⟩
      have hGH := hG.subsumesUpTo_left (hapart hdraws) hground
      exact ⟨_, rfl, (simplify_equivalent hL reduce G).right.trans_upTo hGH⟩

theorem Seen.predicts_of_predicts {L M : Learner} {C : Clause} {positive reduce : Bool}
    {result : Except ArityClash Outcome} (hL : L.covers = Clause.subsumes)
    (htaxonomy : L.taxonomy = none) (hM : M.covers = Clause.subsumes)
    (hseen : L.Seen C reduce positive result M) (hground : C.Ground)
    (hdraws : M.supply.count ≤ L.supply.count + NameSupply.period) {D : Clause}
    (hD : L.predicts D = true) : M.predicts D = true := by
  rcases (predicts_iff hL).mp hD with ⟨H, hH, hHD⟩
  rcases hseen.subsumesUpTo_before hL hground hdraws hH with ⟨H', hH', hup⟩
  rw [htaxonomy, Clause.subsumesUpTo_none] at hup
  exact (predicts_iff hM).mpr ⟨H', hH', hup.trans hHD⟩

/-!
# Runs
-/

theorem predicts_run {L : Learner} (hL : L.covers = Clause.subsumes) (htaxonomy : L.taxonomy = none)
    {es : List Event} (hground : ∀ e ∈ es, e.Shows Clause.Ground) (hdraws : L.DrawsWithinPeriod es)
    {D : Clause} (hD : L.predicts D = true) : (L.run es).predicts D = true := by
  induction es generalizing L with
  | nil => exact hD
  | cons e es ih =>
      rcases L.step_setup e with ⟨hcovers, htaxonomy'⟩
      rcases List.forall_mem_cons.mp hground with ⟨hfirst, hrest⟩
      refine ih (hcovers.trans hL) (htaxonomy'.trans htaxonomy) hrest ?_ ?_
      · cases e with
        | configure config => exact hdraws
        | see C positive reduce => exact hdraws.right
      · cases e with
        | configure config => exact hD
        | see C positive reduce =>
            rcases hsee : L.see C positive reduce with ⟨result, M⟩
            have hdrawn := hdraws.left
            rw [step_eq_of_see_eq hsee] at hcovers ⊢
            rw [hsee] at hdrawn
            exact (seen_of_see_eq hsee).predicts_of_predicts hL htaxonomy (hcovers.trans hL)
              hfirst hdrawn.le hD

/-- What is predicted in one state of a run over ground samples is predicted in every later one. -/
theorem predicts_of_prefix {L : Learner} (hL : L.covers = Clause.subsumes)
    (htaxonomy : L.taxonomy = none) {es : List Event} (hground : ∀ e ∈ es, e.Shows Clause.Ground)
    (hdraws : L.DrawsWithinPeriod es) {before after : List Event} (hbefore : before <+: after)
    (hafter : after <+: es) {D : Clause} (hD : (L.run before).predicts D = true) :
    (L.run after).predicts D = true := by
  rcases hbefore with ⟨rest, rfl⟩
  rw [run_append]
  apply predicts_run
  · exact (L.run_setup before).left.trans hL
  · exact (L.run_setup before).right.trans htaxonomy
  · intro e he
    exact hground e (hafter.subset (List.mem_append_right before he))
  · exact (drawsWithinPeriod_append.mp (hdraws.of_prefix hafter)).right
  · exact hD

def edgeSamples : List Event :=
  [.see (.ofList [⟨true, "e", [.const "a", .const "b"]⟩]) true false,
    .see (.ofList [⟨true, "e", [.const "c", .const "b"]⟩]) true false,
    .see (.ofList [⟨true, "e", [.const "d"]⟩]) true false,
    .configure { strategy := .fixedPoint },
    .see (.ofList [⟨true, "e", [.const "a", .const "d"]⟩]) true true]

theorem predicts_edgeSamples :
    ((new none).run edgeSamples).predicts
      (.ofList [⟨true, "e", [.var "Z", .const "b"]⟩]) = true :=
  predicts_of_prefix rfl rfl (by decide) (by decide) (List.take_prefix 2 edgeSamples)
    (List.prefix_refl edgeSamples) (by decide)

end Learner
end ClauseInduction
