import ClauseInduction.Proofs.Generalization.Lifting
import ClauseInduction.Proofs.Learner.NoiseFree

/-!
# Runs that keep their positive samples

Without a taxonomy a learner should predict every clause that it has taken.  It does as long as
each new hypothesis subsumes the old hypothesis and the new sample, and only then.  This is not
automatic: a variable absorbs a constant that it meets, so it may come to stand for two different
pairs of terms, and then no substitution gives back the sample.
-/

namespace ClauseInduction
namespace Learner

/-!
# Calls that generalize
-/

/-- Seeing the sample `C` replaces the hypothesis `H` by the generalization `G`. -/
structure Generalizes (L : Learner) (C : Clause) (reduce : Bool) (H G : Clause) : Prop where
  before : L.hypothesis = some H
  outcome : ∃ reduced, (L.see C true reduce).1 = .ok (.generalized reduced)
  after : (L.see C true reduce).2.hypothesis = some G

theorem Seen.predicts {L M : Learner} {C : Clause} {positive reduce : Bool}
    {result : Except ArityClash Outcome} (hL : L.covers = Clause.subsumes)
    (hseen : L.Seen C reduce positive result M)
    (hsound : ∀ H G reduced, L.hypothesis = some H → positive = true →
      result = .ok (.generalized reduced) → M.hypothesis = some G → G.Subsumes H ∧ G.Subsumes C) :
    (∀ D, L.predicts D = true → M.predicts D = true) ∧
      ∀ outcome, positive = true → result = .ok outcome → M.predicts C = true := by
  cases hseen with
  | ignored => exact ⟨fun D hD => hD, nofun⟩
  | adopted hnone =>
      constructor
      · intro D hD
        rcases (predicts_iff hL).mp hD with ⟨H, hH, -⟩
        rw [hnone] at hH
        cases hH
      · intro outcome hpositive hresult
        refine (predicts_iff ?_).mpr ⟨C, rfl, Clause.Subsumes.refl C⟩
        exact hL
  | @covered H hsome hcovers =>
      refine ⟨fun D hD => hD, ?_⟩
      intro outcome hpositive hresult
      rw [hL] at hcovers
      exact (predicts_iff hL).mpr ⟨H, hsome, Clause.subsumes_iff.mp hcovers⟩
  | failed hsome hcovers hgen => exact ⟨fun D hD => hD, nofun⟩
  | @generalized H G supply hsome hcovers hgen =>
      rcases hsound H _ _ hsome rfl rfl rfl with ⟨hH, hC⟩
      constructor
      · intro D hD
        rcases (predicts_iff hL).mp hD with ⟨K, hK, hKD⟩
        rw [hsome] at hK
        cases hK
        refine (predicts_iff ?_).mpr ⟨_, rfl, hH.trans hKD⟩
        exact hL
      · intro outcome hpositive hresult
        refine (predicts_iff ?_).mpr ⟨_, rfl, hC⟩
        exact hL

/-- Without a taxonomy, and with fewer draws than there are names, a call generalizes soundly if no
variable absorbs two different things. -/
theorem Generalizes.subsumes_both {L : Learner} {C H G : Clause} {reduce : Bool}
    (hL : L.covers = Clause.subsumes) (htaxonomy : L.taxonomy = none)
    (h : L.Generalizes C reduce H G)
    (hdraws : (L.see C true reduce).2.supply.count ≤ L.supply.count + NameSupply.period)
    (habsorb : Clause.AbsorbsConsistently H C) : G.Subsumes H ∧ G.Subsumes C := by
  rcases h with ⟨hbefore, ⟨reduced, houtcome⟩, hafter⟩
  rcases hsee : L.see C true reduce with ⟨result, M⟩
  rw [hsee] at houtcome hafter hdraws
  cases seen_of_see_eq hsee with
  | adopted hnone => cases houtcome
  | covered hsome hcovers => cases houtcome
  | failed hsome hcovers hgen => cases houtcome
  | @generalized K G' supply hsome hcovers hgen =>
      rw [hsome] at hbefore
      cases hbefore
      cases hafter
      rw [htaxonomy] at hgen
      rcases Clause.exists_isGeneralization hgen with ⟨φ, hG, hapart⟩
      rcases hG.subsumes_both (hapart hdraws) habsorb with ⟨hH, hC⟩
      have hequivalent := (simplify_equivalent hL reduce G').right
      exact ⟨hequivalent.trans hH, hequivalent.trans hC⟩

/-!
# Runs
-/

theorem predicts_taken_of_sound {L : Learner} (hL : L.covers = Clause.subsumes) {es : List Event}
    (hsound : ∀ before C reduce H G, before ++ [.see C true reduce] <+: es →
      (L.run before).Generalizes C reduce H G → G.Subsumes H ∧ G.Subsumes C) :
    ∀ C, L.Taken es C → (L.run es).predicts C = true := by
  induction es using List.reverseRecOn with
  | nil =>
      intro C hC
      rcases hC with hfirst | haccepted
      · exact (predicts_iff hL).mpr ⟨C, hfirst, Clause.Subsumes.refl C⟩
      · exact absurd haccepted (not_accepted_nil L C)
  | append_singleton es e ih =>
      have hpart : es <+: es ++ [e] := List.prefix_append es [e]
      have hold := ih fun before C reduce H G hbefore =>
        hsound before C reduce H G (hbefore.trans hpart)
      have hcovers : (L.run es).covers = Clause.subsumes := (L.run_setup es).left.trans hL
      intro D hD
      rw [run_concat]
      cases e with
      | configure config =>
          rcases taken_concat.mp hD with hD | ⟨reduce, outcome, he, -⟩
          · exact hold D hD
          · cases he
      | see C positive reduce =>
          rcases hsee : (L.run es).see C positive reduce with ⟨result, M⟩
          rw [step_eq_of_see_eq hsee]
          have hkeep := (seen_of_see_eq hsee).predicts hcovers (by
            intro H G reduced hH hpositive hresult hG
            cases hpositive
            cases hresult
            refine hsound es C reduce H G (List.prefix_refl _) ⟨hH, ⟨reduced, ?_⟩, ?_⟩
            · rw [hsee]
            · rw [hsee]
              exact hG)
          rcases taken_concat.mp hD with hD | ⟨reduce', outcome, he, hok⟩
          · exact hkeep.left D (hold D hD)
          · cases he
            rw [hsee] at hok
            exact hkeep.right outcome rfl hok

def AbsorbsConsistently (L : Learner) (es : List Event) : Prop :=
  ∀ before C reduce H G, before ++ [.see C true reduce] <+: es →
    (L.run before).Generalizes C reduce H G → Clause.AbsorbsConsistently H C

theorem absorbsConsistently_nil (L : Learner) : L.AbsorbsConsistently [] := by
  intro before C reduce H G hpart
  simp at hpart

theorem absorbsConsistently_cons {L : Learner} {e : Event} {es : List Event} :
    L.AbsorbsConsistently (e :: es) ↔
      (∀ C reduce H G, e = .see C true reduce → L.Generalizes C reduce H G →
        Clause.AbsorbsConsistently H C) ∧ (L.step e).AbsorbsConsistently es := by
  constructor
  · intro h
    constructor
    · intro C reduce H G he hgen
      refine h [] C reduce H G ?_ hgen
      rw [he]
      exact List.prefix_append [.see C true reduce] es
    · intro before C reduce H G hpart
      exact h (e :: before) C reduce H G (List.cons_prefix_cons.mpr ⟨rfl, hpart⟩)
  · intro h before C reduce H G hpart hgen
    cases before with
    | nil =>
        rcases List.cons_prefix_cons.mp hpart with ⟨he, -⟩
        exact h.left C reduce H G he.symm hgen
    | cons f before =>
        rcases List.cons_prefix_cons.mp hpart with ⟨rfl, hrest⟩
        exact h.right before C reduce H G hrest hgen

theorem absorbs_see_iff {L : Learner} {C H : Clause} {reduce : Bool} (hH : L.hypothesis = some H) :
    (∀ C' reduce' H' G, Event.see C true reduce = .see C' true reduce' →
        L.Generalizes C' reduce' H' G → Clause.AbsorbsConsistently H' C') ↔
      ((∃ reduced, (L.see C true reduce).1 = .ok (.generalized reduced)) →
        Clause.AbsorbsConsistently H C) := by
  constructor
  · intro h hout
    have hafter : (L.run [.see C true reduce]).hypothesis ≠ none :=
      hypothesis_run_ne_none (Or.inr (hH ▸ Option.some_ne_none H))
    rcases Option.ne_none_iff_exists'.mp hafter with ⟨G, hG⟩
    exact h C reduce H G rfl ⟨hH, hout, hG⟩
  · intro h C' reduce' H' G he hgen
    cases he
    have hsame : H = H' := Option.some.inj (hH.symm.trans hgen.before)
    rw [← hsame]
    exact h hgen.outcome

instance decidableAbsorbsConsistently :
    (es : List Event) → (L : Learner) → Decidable (L.AbsorbsConsistently es)
  | [], L => isTrue (absorbsConsistently_nil L)
  | e :: es, L =>
      have := decidableAbsorbsConsistently es (L.step e)
      have : Decidable (∀ C reduce H G, e = .see C true reduce → L.Generalizes C reduce H G →
          Clause.AbsorbsConsistently H C) :=
        match e, hL : L.hypothesis with
        | .configure _, _ => isTrue nofun
        | .see _ false _, _ => isTrue nofun
        | .see _ true _, none =>
            isTrue fun _ _ _ _ _ hgen =>
              absurd (hgen.before.symm.trans hL) (Option.some_ne_none _)
        | .see _ true _, some _ => decidable_of_iff' _ (absorbs_see_iff hL)
      decidable_of_iff' _ absorbsConsistently_cons

theorem DrawsWithinPeriod.count_see_le {L : Learner} {es before : List Event} {C : Clause}
    {positive reduce : Bool} (h : L.DrawsWithinPeriod es)
    (hpart : before ++ [.see C positive reduce] <+: es) :
    ((L.run before).see C positive reduce).2.supply.count ≤
      (L.run before).supply.count + NameSupply.period :=
  (drawsWithinPeriod_append.mp (h.of_prefix hpart)).right.left.le

theorem AbsorbsConsistently.predicts_taken {L : Learner} {es : List Event}
    (h : L.AbsorbsConsistently es) (hL : L.covers = Clause.subsumes)
    (htaxonomy : L.taxonomy = none) (hdraws : L.DrawsWithinPeriod es) :
    ∀ C, L.Taken es C → (L.run es).predicts C = true := by
  apply predicts_taken_of_sound hL
  intro before C reduce H G hpart hgen
  exact hgen.subsumes_both ((L.run_setup before).left.trans hL)
    ((L.run_setup before).right.trans htaxonomy) (hdraws.count_see_le hpart)
    (h before C reduce H G hpart hgen)

/-- All predictions are kept exactly when every call of the run that generalizes does so soundly.
The last part bounds what can go wrong. -/
theorem predicts_taken_iff {L : Learner} (hL : L.covers = Clause.subsumes)
    (htaxonomy : L.taxonomy = none) (es : List Event) :
    ((∀ es', es' <+: es → ∀ C, L.Taken es' C → (L.run es').predicts C = true) ↔
      ∀ before C reduce H G, before ++ [.see C true reduce] <+: es →
        (L.run before).Generalizes C reduce H G → G.subsumes H = true ∧ G.subsumes C = true) ∧
    ∀ before C reduce H G, before ++ [.see C true reduce] <+: es →
      (L.run before).Generalizes C reduce H G →
      ((L.run before).see C true reduce).2.supply.count ≤
        (L.run before).supply.count + NameSupply.period →
      Clause.AbsorbsConsistently H C → G.subsumes H = true ∧ G.subsumes C = true := by
  simp only [Clause.subsumes_iff]
  refine ⟨⟨?_, ?_⟩, ?_⟩
  · intro hpredicts before C reduce H G hpart hgen
    have hcovers : (L.run (before ++ [.see C true reduce])).covers = Clause.subsumes :=
      (L.run_setup _).left.trans hL
    have hG : (L.run (before ++ [.see C true reduce])).hypothesis = some G := by
      rw [run_concat]
      exact hgen.after
    have htaken : ∀ D, L.Taken (before ++ [.see C true reduce]) D → G.Subsumes D := by
      intro D hD
      rcases (predicts_iff hcovers).mp (hpredicts _ hpart D hD) with ⟨K, hK, hKD⟩
      rw [hG] at hK
      cases hK
      exact hKD
    constructor
    -- the old hypothesis lies above all clauses below what was taken, so above `G`
    · refine subsumes_hypothesis_run hL ?_ H hgen.before
      intro D hD
      exact htaken D (taken_concat.mpr (Or.inl hD))
    · rcases hgen.outcome with ⟨reduced, houtcome⟩
      exact htaken C (taken_concat.mpr (Or.inr ⟨reduce, _, rfl, houtcome⟩))
  · intro hsound es' hpart
    apply predicts_taken_of_sound hL
    intro before C reduce H G hbefore
    exact hsound before C reduce H G (hbefore.trans hpart)
  · intro before C reduce H G hpart hgen hdraws habsorb
    exact hgen.subsumes_both ((L.run_setup before).left.trans hL)
      ((L.run_setup before).right.trans htaxonomy) hdraws habsorb

def absorbedSamples : List Event :=
  [.see (.ofList [⟨true, "p", [.const "a", .const "a"]⟩]) true false,
    .see (.ofList [⟨true, "p", [.const "b", .const "b"]⟩]) true false,
    .see (.ofList [⟨true, "p", [.const "c", .const "d"]⟩]) true false]

example : ¬ (new none).AbsorbsConsistently absorbedSamples := by decide

theorem exists_unsound_call : ¬ ∀ before C reduce H G,
    before ++ [.see C true reduce] <+: absorbedSamples →
      ((new none).run before).Generalizes C reduce H G →
        G.subsumes H = true ∧ G.subsumes C = true := by
  intro hsound
  have hpredicts := (predicts_taken_iff (L := new none) rfl rfl absorbedSamples).left.mpr hsound
    absorbedSamples (List.prefix_refl _)
    (.ofList [⟨true, "p", [.const "c", .const "d"]⟩])
    (Or.inr ⟨absorbedSamples.take 2, false, [], .generalized false, rfl, by decide⟩)
  revert hpredicts
  decide

theorem exists_lost_sample : ¬ ∀ es es', es' <+: es → ∀ C, (new none).Accepted es' C →
    ((new none).run es').predicts C = true := by
  intro h
  have hpredicts := h absorbedSamples absorbedSamples (List.prefix_refl _)
    (.ofList [⟨true, "p", [.const "c", .const "d"]⟩])
    ⟨absorbedSamples.take 2, false, [], .generalized false, rfl, by decide⟩
  revert hpredicts
  decide

end Learner
end ClauseInduction
