import ClauseInduction.Proofs.Generalization.Monotone
import ClauseInduction.Proofs.Learner.Arity
import ClauseInduction.Proofs.Learner.Coverage

/-!
# Reducing along the way

A learner that reduces what it generalizes always stays at least as general as one that never does:
its hypothesis renames into the other one after every sample.  The two are equivalent as long as the
learner that never reduces predicts its samples.  Otherwise they may part, since a literal that
reduction has taken away can make a variable absorb two different constants.
-/

namespace ClauseInduction
namespace Learner

/-!
# Two learners side by side
-/

/-- The hypothesis of `L` renames into that of `M`, and both use every predicate with one arity. -/
structure Tracks (arity : String → Nat) (L M : Learner) : Prop where
  covers : L.covers = Clause.subsumes
  covers' : M.covers = Clause.subsumes
  taxonomy : L.taxonomy = M.taxonomy
  hypothesis : Option.Rel Clause.RenamesInto L.hypothesis M.hypothesis
  arities : ∀ R, L.hypothesis = some R → R.HasArities arity
  arities' : ∀ U, M.hypothesis = some U → U.HasArities arity

theorem Tracks.hypothesis_see {arity : String → Nat} {L M : Learner} (h : Tracks arity L M)
    {C : Clause} (hground : C.Ground) (hC : C.HasArities arity) (positive reduce : Bool)
    (hdraws : (L.see C positive reduce).2.supply.count ≤ L.supply.count + NameSupply.period) :
    Option.Rel Clause.RenamesInto (L.see C positive reduce).2.hypothesis
      (M.see C positive false).2.hypothesis := by
  cases positive with
  | false =>
      rw [see_eq_of_seen (.ignored (L := L)), see_eq_of_seen (.ignored (L := M))]
      exact h.hypothesis
  | true =>
      have hrel := h.hypothesis
      generalize hL : L.hypothesis = hypothesis at hrel
      generalize hM : M.hypothesis = hypothesis' at hrel
      cases hrel with
      | none =>
          rw [see_eq_of_seen (.adopted hL), see_eq_of_seen (.adopted hM)]
          exact .some (Clause.RenamesInto.refl C)
      | @some R U hRU =>
          rcases (h.arities' U hM).exists_generalize hC (Taxonomy.rule M.taxonomy) M.supply with
            ⟨G', next', hgen'⟩
          cases hcovers : L.covers R C with
          | true =>
              rw [see_eq_of_seen (.covered hL hcovers)]
              cases hcovers' : M.covers U C with
              | true =>
                  rw [see_eq_of_seen (.covered hM hcovers'), hL, hM]
                  exact .some hRU
              | false =>
                  rw [see_eq_of_seen (.generalized hM hcovers' hgen'), hL]
                  rw [h.covers] at hcovers
                  exact .some (hRU.generalize_right (Clause.subsumes_iff.mp hcovers) hgen')
          | false =>
              -- what is not covered by the more general hypothesis is not covered by the other one
              have hcovers' : M.covers U C = false := by
                rw [h.covers] at hcovers
                rw [h.covers', Clause.subsumes_eq_false_iff]
                intro hUC
                exact Clause.subsumes_eq_false_iff.mp hcovers (hRU.subsumes.trans hUC)
              rcases (h.arities R hL).exists_generalize hC (Taxonomy.rule L.taxonomy) L.supply with
                ⟨G, next, hgen⟩
              rw [supply_see_of_not_covers hL hcovers, hgen] at hdraws
              rw [see_eq_of_seen (.generalized hL hcovers hgen),
                see_eq_of_seen (.generalized hM hcovers' hgen')]
              rw [← h.taxonomy] at hgen'
              have hGG' : G.RenamesInto G' := hRU.generalize hground hgen hgen' hdraws
              exact .some (hGG'.of_subset (simplify_subset h.covers reduce G))

theorem Tracks.see {arity : String → Nat} {L M : Learner} (h : Tracks arity L M)
    {C : Clause} (hground : C.Ground) (hC : C.HasArities arity) (positive reduce : Bool)
    (hdraws : (L.see C positive reduce).2.supply.count ≤ L.supply.count + NameSupply.period) :
    Tracks arity (L.see C positive reduce).2 (M.see C positive false).2 := by
  have hhypothesis := h.hypothesis_see hground hC positive reduce hdraws
  rcases L.step_setup (.see C positive reduce) with ⟨hcovers, htaxonomy⟩
  rcases M.step_setup (.see C positive false) with ⟨hcovers', htaxonomy'⟩
  exact ⟨hcovers.trans h.covers, hcovers'.trans h.covers',
    htaxonomy.trans (h.taxonomy.trans htaxonomy'.symm), hhypothesis,
    hasArities_see h.covers hC h.arities positive reduce,
    hasArities_see h.covers' hC h.arities' positive false⟩

/-!
# Runs
-/

def showing (reduce : Bool) (samples : List Sample) : List Event :=
  samples.map fun s => .see s.clause s.positive reduce

theorem Tracks.run {arity : String → Nat} {L M : Learner} (h : Tracks arity L M)
    {samples : List Sample} (hground : ∀ s ∈ samples, s.clause.Ground)
    (harity : ∀ s ∈ samples, s.clause.HasArities arity)
    (hdraws : L.DrawsWithinPeriod (showing true samples)) :
    Tracks arity (L.run (showing true samples)) (M.run (showing false samples)) := by
  induction samples generalizing L M with
  | nil => exact h
  | cons s samples ih =>
      rcases List.forall_mem_cons.mp hground with ⟨hsample, hground⟩
      rcases List.forall_mem_cons.mp harity with ⟨hsampleArity, harity⟩
      exact ih (h.see hsample hsampleArity s.positive true hdraws.left.le) hground harity
        hdraws.right

theorem forall_showing {reduce : Bool} {samples : List Sample} {P : Clause → Prop}
    (h : ∀ s ∈ samples, P s.clause) : ∀ e ∈ showing reduce samples, e.Shows P := by
  intro e he
  rcases List.mem_map.mp he with ⟨s, hs, rfl⟩
  exact h s hs

theorem see_mem_showing {reduce reduce' positive : Bool} {samples : List Sample} {C : Clause} :
    .see C positive reduce' ∈ showing reduce samples ↔
      (∃ s ∈ samples, s.clause = C ∧ s.positive = positive) ∧ reduce = reduce' := by
  constructor
  · intro h
    rcases List.mem_map.mp h with ⟨s, hs, heq⟩
    cases heq
    exact ⟨⟨s, hs, rfl, rfl⟩, rfl⟩
  · intro h
    rcases h with ⟨⟨s, hs, rfl, rfl⟩, rfl⟩
    exact List.mem_map_of_mem hs

/-- The plain hypothesis is the least general one as soon as it covers all positive samples, and
then it subsumes the reduced one. -/
theorem equivalent_of_tracks {arity : String → Nat} {L M : Learner}
    (hL : L.covers = Clause.subsumes) (hnone : L.hypothesis = none) {samples : List Sample}
    (htracks : Tracks arity (L.run (showing true samples)) (M.run (showing false samples)))
    (hpredicts : ∀ s ∈ samples, s.positive = true →
      (M.run (showing false samples)).predicts s.clause = true) :
    Option.Rel Clause.Equivalent (L.run (showing true samples)).hypothesis
      (M.run (showing false samples)).hypothesis := by
  have hrel := htracks.hypothesis
  generalize hR : (L.run (showing true samples)).hypothesis = hypothesis at hrel
  generalize hU : (M.run (showing false samples)).hypothesis = hypothesis' at hrel
  cases hrel with
  | none => exact .none
  | @some R U hRU =>
      have hUR : U.Subsumes R := by
        refine subsumes_hypothesis_of_positives hL hnone ?_ hR
        intro C reduce hmem
        rcases (see_mem_showing.mp hmem).left with ⟨s, hs, rfl, hpositive⟩
        rcases (predicts_iff htracks.covers').mp (hpredicts s hs hpositive) with ⟨U', hU', hUC⟩
        rw [hU] at hU'
        cases hU'
        exact hUC
      exact .some (Clause.equivalent_iff.mpr ⟨hRU.subsumes, hUR⟩)

/-- After every sample the learner that reduces is at least as general as the one that does not, and
equivalent to it unless the latter has lost a sample. -/
theorem rel_hypothesis_showing {L M : Learner} (hL : L.covers = Clause.subsumes)
    (hM : M.covers = Clause.subsumes) (htaxonomy : L.taxonomy = none)
    (htaxonomy' : M.taxonomy = none) (hnone : L.hypothesis = none) (hnone' : M.hypothesis = none)
    {samples : List Sample}
    {arity : String → Nat} (hground : ∀ s ∈ samples, s.clause.Ground)
    (harity : ∀ s ∈ samples, s.clause.HasArities arity)
    (hdraws : L.DrawsWithinPeriod (showing true samples))
    (hdraws' : M.DrawsWithinPeriod (showing false samples)) {part : List Sample}
    (hpart : part <+: samples) :
    Option.Rel (fun R U => R.subsumes U = true) (L.run (showing true part)).hypothesis
        (M.run (showing false part)).hypothesis ∧
      ((∀ s ∈ part, s.positive = true → (M.run (showing false part)).predicts s.clause = true) →
        Option.Rel Clause.Equivalent (L.run (showing true part)).hypothesis
          (M.run (showing false part)).hypothesis) ∧
      (M.AbsorbsConsistently (showing false part) →
        Option.Rel Clause.Equivalent (L.run (showing true part)).hypothesis
          (M.run (showing false part)).hypothesis) := by
  have hgroundPart : ∀ s ∈ part, s.clause.Ground := fun s hs => hground s (hpart.subset hs)
  have harityPart : ∀ s ∈ part, s.clause.HasArities arity := fun s hs => harity s (hpart.subset hs)
  have hstart : Tracks arity L M := by
    refine ⟨hL, hM, htaxonomy.trans htaxonomy'.symm, ?_, ?_, ?_⟩
    · rw [hnone, hnone']
      exact .none
    · rw [hnone]
      exact nofun
    · rw [hnone']
      exact nofun
  have htracks := hstart.run hgroundPart harityPart (hdraws.of_prefix (hpart.map _))
  refine ⟨?_, equivalent_of_tracks hL hnone htracks, ?_⟩
  · have hrel := htracks.hypothesis
    generalize (L.run (showing true part)).hypothesis = hypothesis at hrel ⊢
    generalize (M.run (showing false part)).hypothesis = hypothesis' at hrel ⊢
    cases hrel with
    | none => exact .none
    | some hRU => exact .some (Clause.subsumes_iff.mpr hRU.subsumes)
  · intro habsorb
    apply equivalent_of_tracks hL hnone htracks
    intro s hs hpositive
    have haccepted : M.Accepted (showing false part) s.clause :=
      accepted_of_hasArities hM hnone' (forall_showing harityPart)
        (see_mem_showing.mpr ⟨⟨s, hs, rfl, hpositive⟩, rfl⟩)
    exact habsorb.predicts_taken hM htaxonomy' (hdraws'.of_prefix (hpart.map _)) s.clause
      (Or.inr haccepted)

def symmetricSamples : List Sample :=
  [⟨.ofList [⟨true, "p", [.const "a", .const "b"]⟩, ⟨true, "p", [.const "b", .const "a"]⟩], true⟩,
    ⟨.ofList [⟨true, "p", [.const "c", .const "d"]⟩, ⟨true, "p", [.const "d", .const "c"]⟩], true⟩,
    ⟨.ofList [⟨true, "p", [.const "a", .const "a"]⟩], false⟩,
    ⟨.ofList [⟨true, "p", [.app ⟨"f", 1⟩ [.const "a"], .app ⟨"f", 1⟩ [.const "b"]]⟩], true⟩]

theorem equivalent_symmetricSamples :
    Option.Rel Clause.Equivalent
      ((configure { strategy := .fixedPoint } (new none)).run
        (showing true symmetricSamples)).hypothesis
      ((new none).run (showing false symmetricSamples)).hypothesis :=
  (rel_hypothesis_showing (L := configure { strategy := .fixedPoint } (new none)) (M := new none)
    rfl rfl rfl rfl rfl rfl (by decide)
    (by decide : ∀ s ∈ symmetricSamples, s.clause.HasArities fun _ => 2) (by decide) (by decide)
    (List.prefix_refl symmetricSamples)).right.left (by decide)

/-- Two clauses with one literal in common generalize to that literal and others that are redundant
beside it.  The last sample is kept once these are gone; otherwise it is lost to a variable that
stands in both places. -/
theorem exists_reduction_dependence : ¬ ∀ (samples : List Sample) (arity : String → Nat)
    (strategy : ReductionStrategy), (∀ s ∈ samples, s.clause.Ground) →
    (∀ s ∈ samples, s.clause.HasArities arity) → ∀ part, part <+: samples →
      Option.Rel Clause.Equivalent
        ((configure { strategy := strategy } (new none)).run (showing true part)).hypothesis
        ((new none).run (showing false part)).hypothesis := by
  intro h
  have hrel := h
    [⟨.ofList [⟨true, "p", [.const "d", .const "d"]⟩,
        ⟨true, "p", [.const "a", .const "a"]⟩], true⟩,
      ⟨.ofList [⟨true, "p", [.const "d", .const "d"]⟩,
        ⟨true, "p", [.const "b", .const "b"]⟩], true⟩,
      ⟨.ofList [⟨true, "p", [.const "a", .const "b"]⟩], true⟩]
    (fun _ => 2) .singlePass (by decide) (by decide) _ (List.prefix_refl _)
  have hpredicts := predicts_of_equivalent rfl rfl (rel_equivalent_symm hrel)
    (by decide : _ = true) (C := .ofList [⟨true, "p", [.const "a", .const "b"]⟩])
  revert hpredicts
  decide

end Learner
end ClauseInduction
