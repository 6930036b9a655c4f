import ClauseInduction.Proofs.Learner.Coverage
import ClauseInduction.Proofs.Learner.Failure
import ClauseInduction.Report

/-!
# Reported changes

A call that generalizes is reported as a change.  It is one, unless the generalization has the
literals of the old hypothesis again: the call stalls.  A sample on which a learner stalls is lost,
since the hypothesis did not cover it before.  Without a taxonomy and without reduction this happens
exactly when the hypothesis engulfs the sample: their literals differ only where one has a variable
and the other a constant, and all that comes of them is in the hypothesis already.
-/

namespace ClauseInduction
namespace Clause

open PairTable

/-!
# Clauses that generalize to the first of them
-/

/-- The term for a pair that decides its term without ancestors. -/
def absorb (s t : Term) : Term :=
  (settled? noAncestor s t).getD s

/-- No pair of terms needs a new variable, and the literals that the two clauses generalize to are
those of `A`. -/
structure Engulfs (A B : Clause) : Prop where
  compatible : ∀ l ∈ A, ∀ m ∈ B, l.Comparable m → l.Compatible m
  settled : ∀ p, Aligned A B p → settled? noAncestor p.1 p.2 ≠ none
  mem : ∀ l ∈ A, ∀ m ∈ B, l.Compatible m → l.combine absorb m ∈ A
  onto : ∀ l ∈ A, ∃ k ∈ A, ∃ m ∈ B, k.Compatible m ∧ k.combine absorb m = l

theorem IsGeneralization.combine_eq_absorb {A B G : Clause} {φ : Term → Term → Term}
    (h : IsGeneralization noAncestor A B G φ)
    (hsettled : ∀ p, Aligned A B p → settled? noAncestor p.1 p.2 ≠ none) {l m : Literal}
    (hl : l ∈ A) (hm : m ∈ B) (hlm : l.Compatible m) : l.combine φ m = l.combine absorb m := by
  apply Literal.combine_congr hlm
  intro p hp
  have hp' : Aligned A B p := ⟨l, hl, m, hm, hlm, hp⟩
  rcases Option.ne_none_iff_exists'.mp (hsettled p hp') with ⟨u, hu⟩
  rw [h.settled p hp' u hu, absorb, hu]
  rfl

/-- A new variable shows in the generalization, and it is none of the first clause. -/
theorem IsGeneralization.settled_of_subset {A B G : Clause} {φ : Term → Term → Term}
    (h : IsGeneralization noAncestor A B G φ) (hapart : NamesApart noAncestor A B φ) (hGA : G ⊆ A)
    {p : Term × Term} (hp : Aligned A B p) : settled? noAncestor p.1 p.2 ≠ none := by
  intro hnone
  rcases hapart.minted p hp hnone with ⟨x, hx, hxA, -⟩
  rcases hp with ⟨l, hl, m, hm, hlm, hp⟩
  apply hxA
  refine mem_vars.mpr ⟨l.combine φ m, hGA _ ((h.mem_iff _).mpr ⟨l, hl, m, hm, hlm, rfl⟩), ?_⟩
  refine (Literal.mem_vars_combine hlm).mpr ⟨p, hp, ?_⟩
  rw [hx]
  exact List.mem_singleton.mpr rfl

theorem IsGeneralization.sameLiterals_iff {A B G : Clause} {φ : Term → Term → Term}
    (h : IsGeneralization noAncestor A B G φ) (hapart : NamesApart noAncestor A B φ) :
    G.SameLiterals A ↔ A.Engulfs B := by
  constructor
  · intro hsame
    have hsettled : ∀ p, Aligned A B p → settled? noAncestor p.1 p.2 ≠ none :=
      fun p hp => h.settled_of_subset hapart hsame.left hp
    refine ⟨h.compatible, hsettled, ?_, ?_⟩
    · intro l hl m hm hlm
      rw [← h.combine_eq_absorb hsettled hl hm hlm]
      exact hsame.left _ ((h.mem_iff _).mpr ⟨l, hl, m, hm, hlm, rfl⟩)
    · intro l hl
      rcases (h.mem_iff l).mp (hsame.right l hl) with ⟨k, hk, m, hm, hkm, heq⟩
      exact ⟨k, hk, m, hm, hkm, (h.combine_eq_absorb hsettled hk hm hkm).symm.trans heq⟩
  · intro hengulfs
    constructor
    · intro g hg
      rcases (h.mem_iff g).mp hg with ⟨l, hl, m, hm, hlm, rfl⟩
      rw [h.combine_eq_absorb hengulfs.settled hl hm hlm]
      exact hengulfs.mem l hl m hm hlm
    · intro l hl
      rcases hengulfs.onto l hl with ⟨k, hk, m, hm, hkm, heq⟩
      refine (h.mem_iff l).mpr ⟨k, hk, m, hm, hkm, ?_⟩
      exact (h.combine_eq_absorb hengulfs.settled hk hm hkm).trans heq

/-- A ground clause is engulfed when every literal of the first clause meets one of its literals and
differs from those that it meets only in variables that face constants. -/
theorem engulfs_iff_of_ground {A B : Clause} (hB : B.Ground) :
    A.Engulfs B ↔ (∀ l ∈ A, ∀ m ∈ B, l.Comparable m → l.Compatible m) ∧
      (∀ l ∈ A, ∃ m ∈ B, l.Compatible m) ∧
      ∀ p, Aligned A B p → p.1 = p.2 ∨ ∃ x c, p = (.var x, .const c) := by
  constructor
  · intro h
    refine ⟨h.compatible, ?_, ?_⟩
    · intro l hl
      rcases h.onto l hl with ⟨k, hk, m, hm, hkm, rfl⟩
      exact ⟨m, hm, (Literal.combine_compatible hkm absorb).trans hkm⟩
    · intro p hp
      rcases Option.ne_none_iff_exists'.mp (h.settled p hp) with ⟨u, hu⟩
      rcases settled?_cases hp.not_sameShape hu with
        ⟨x, -, hkeeps⟩ | ⟨c, -, hc⟩ | ⟨a, b, c, -, hrule, -⟩
      · cases hkeeps with
        | same => exact Or.inl rfl
        | left c => exact Or.inr ⟨x, c, rfl⟩
        | right c =>
            have hx := hp.vars_subset.right (List.mem_singleton.mpr rfl : x ∈ (Term.var x).vars)
            rw [hB] at hx
            cases hx
      · rw [hc]
        exact Or.inl rfl
      · cases hrule
  · intro h
    rcases h with ⟨hcompatible, hmeets, hpairs⟩
    have habsorb : ∀ p, Aligned A B p → settled? noAncestor p.1 p.2 = some p.1 := by
      intro p hp
      rcases hpairs p hp with heq | ⟨x, c, rfl⟩
      · rw [← heq]
        exact settled?_self noAncestor p.1
      · rfl
    have hcombine : ∀ l ∈ A, ∀ m ∈ B, l.Compatible m → l.combine absorb m = l := by
      intro l hl m hm hlm
      have hleft : l.combine absorb m = l.combine (fun s _ => s) m := by
        apply Literal.combine_congr hlm
        intro p hp
        rw [absorb, habsorb p ⟨l, hl, m, hm, hlm, hp⟩]
        rfl
      rw [hleft, Literal.combine_left hlm]
    refine ⟨hcompatible, ?_, ?_, ?_⟩
    · intro p hp
      rw [habsorb p hp]
      exact Option.some_ne_none _
    · intro l hl m hm hlm
      rw [hcombine l hl m hm hlm]
      exact hl
    · intro l hl
      rcases hmeets l hl with ⟨m, hm, hlm⟩
      exact ⟨l, hl, m, hm, hlm, hcombine l hl m hm hlm⟩

end Clause

namespace Learner

/-!
# Calls that stall
-/

def SameHypothesis (L M : Learner) : Prop :=
  Option.Rel Clause.SameLiterals L.hypothesis M.hypothesis

instance decidableRelSameLiterals :
    (H K : Option Clause) → Decidable (Option.Rel Clause.SameLiterals H K)
  | none, none => isTrue .none
  | none, some _ => isFalse nofun
  | some _, none => isFalse nofun
  | some H, some K =>
      if h : H.SameLiterals K then isTrue (.some h)
      else isFalse fun hrel => by
        cases hrel with
        | some hHK => exact h hHK

instance (L M : Learner) : Decidable (L.SameHypothesis M) :=
  decidableRelSameLiterals L.hypothesis M.hypothesis

theorem SameHypothesis.refl (L : Learner) : L.SameHypothesis L := by
  unfold SameHypothesis
  cases L.hypothesis with
  | none => exact .none
  | some H => exact .some ⟨fun l hl => hl, fun l hl => hl⟩

/-- The call generalizes, and the hypothesis has the same literals as before. -/
def Stalls (L : Learner) (C : Clause) (positive reduce : Bool) : Prop :=
  (∃ reduced, (L.see C positive reduce).1 = .ok (.generalized reduced)) ∧
    L.SameHypothesis (L.see C positive reduce).2

instance (L : Learner) (C : Clause) (positive reduce : Bool) :
    Decidable (L.Stalls C positive reduce) :=
  inferInstanceAs (Decidable (_ ∧ _))

theorem changes_iff {L : Learner} {C : Clause} {positive reduce : Bool} {outcome : Outcome}
    (h : (L.see C positive reduce).1 = .ok outcome) :
    outcome.changes = true ↔
      ¬ L.SameHypothesis (L.see C positive reduce).2 ∨ L.Stalls C positive reduce := by
  unfold Stalls
  rcases hsee : L.see C positive reduce with ⟨result, M⟩
  rw [hsee] at h
  cases h
  have hkept : ∀ kept : Outcome, kept.changes = false → (∀ reduced, kept ≠ .generalized reduced) →
      (kept.changes = true ↔ ¬ L.SameHypothesis L ∨
        (∃ reduced, Except.ok (ε := ArityClash) kept = .ok (.generalized reduced)) ∧
          L.SameHypothesis L) := by
    intro kept hchanges hne
    simp [hchanges, hne, SameHypothesis.refl L]
  cases seen_of_see_eq hsee with
  | ignored => exact hkept _ rfl nofun
  | covered hsome hcovers => exact hkept _ rfl nofun
  | adopted hnone =>
      refine ⟨fun _ => Or.inl ?_, fun _ => rfl⟩
      unfold SameHypothesis
      rw [hnone]
      exact nofun
  | @generalized H G supply hsome hcovers hgen =>
      refine ⟨fun _ => ?_, fun _ => rfl⟩
      by_cases hsame : L.SameHypothesis
          { L with supply, hypothesis := some (L.simplify reduce G).1 }
      · exact Or.inr ⟨⟨_, rfl⟩, hsame⟩
      · exact Or.inl hsame

theorem Stalls.exists_generalizes {L : Learner} {C : Clause} {positive reduce : Bool}
    (h : L.Stalls C positive reduce) :
    positive = true ∧ ∃ H G supply, L.covers H C = false ∧
      H.generalize (Taxonomy.rule L.taxonomy) C L.supply = (.ok G, supply) ∧
      L.Generalizes C reduce H (L.simplify reduce G).1 ∧
      H.SameLiterals (L.simplify reduce G).1 := by
  rcases h with ⟨⟨reduced, houtcome⟩, hsame⟩
  rcases hsee : L.see C positive reduce with ⟨result, M⟩
  rw [hsee] at houtcome hsame
  cases seen_of_see_eq hsee with
  | ignored => cases houtcome
  | adopted hnone => cases houtcome
  | covered hsome hcovers => cases houtcome
  | failed hsome hcovers hgen => cases houtcome
  | @generalized H G supply hsome hcovers hgen =>
      have hafter : (L.see C true reduce).2.hypothesis = some (L.simplify reduce G).1 := by
        rw [hsee]
      refine ⟨rfl, H, G, supply, hcovers, hgen, ⟨hsome, ⟨_, congrArg Prod.fst hsee⟩, hafter⟩, ?_⟩
      · unfold SameHypothesis at hsame
        rw [hsome] at hsame
        cases hsame with
        | some hHG => exact hHG

theorem Stalls.not_predicts {L : Learner} (hL : L.covers = Clause.subsumes) {C : Clause}
    {positive reduce : Bool} (h : L.Stalls C positive reduce) :
    (L.see C positive reduce).2.predicts C = false := by
  rcases h.exists_generalizes with ⟨rfl, H, G, supply, hcovers, -, hgeneralizes, hHG⟩
  have hafter : (L.see C true reduce).2.covers = Clause.subsumes :=
    (L.step_setup (.see C true reduce)).left.trans hL
  rw [Bool.eq_false_iff]
  intro hpredicts
  rcases (predicts_iff hafter).mp hpredicts with ⟨K, hK, hKC⟩
  rw [hgeneralizes.after] at hK
  cases hK
  rw [hL] at hcovers
  exact Clause.subsumes_eq_false_iff.mp hcovers ((Clause.Subsumes.of_subset hHG.left).trans hKC)

theorem Stalls.not_absorbsConsistently {L : Learner} (hL : L.covers = Clause.subsumes)
    (htaxonomy : L.taxonomy = none) {C : Clause} {positive reduce : Bool}
    (h : L.Stalls C positive reduce)
    (hdraws : (L.see C positive reduce).2.supply.count ≤ L.supply.count + NameSupply.period) :
    ∃ H, L.hypothesis = some H ∧ ¬ H.AbsorbsConsistently C := by
  rcases h.exists_generalizes with ⟨rfl, H, G, supply, hcovers, -, hgeneralizes, hHG⟩
  refine ⟨H, hgeneralizes.before, fun habsorb => ?_⟩
  rw [hL] at hcovers
  have hGC := (hgeneralizes.subsumes_both hL htaxonomy hdraws habsorb).right
  exact Clause.subsumes_eq_false_iff.mp hcovers ((Clause.Subsumes.of_subset hHG.left).trans hGC)

theorem stalls_iff_engulfs {L : Learner} (hL : L.covers = Clause.subsumes)
    (htaxonomy : L.taxonomy = none) {C H : Clause} (hH : L.hypothesis = some H)
    (hdraws : (L.see C true false).2.supply.count ≤ L.supply.count + NameSupply.period) :
    L.Stalls C true false ↔ H.subsumes C = false ∧ H.Engulfs C := by
  -- both directions compare `H` with the generalization that the call comes to
  have hsame : ∀ {G : Clause} {supply : NameSupply}, L.covers H C = false →
      H.generalize (Taxonomy.rule L.taxonomy) C L.supply = (.ok G, supply) →
      (G.SameLiterals H ↔ H.Engulfs C) := by
    intro G supply hcovers hgen
    rw [supply_see_of_not_covers hH hcovers, hgen] at hdraws
    rw [htaxonomy] at hgen
    rcases Clause.exists_isGeneralization hgen with ⟨φ, hG, hapart⟩
    exact hG.sameLiterals_iff (hapart hdraws)
  rw [← hL]
  constructor
  · intro h
    rcases h.exists_generalizes with ⟨-, K, G, supply, hcovers, hgen, hgeneralizes, hKG⟩
    have hHK : H = K := Option.some.inj (hH.symm.trans hgeneralizes.before)
    subst hHK
    exact ⟨hcovers, (hsame hcovers hgen).mp ⟨hKG.right, hKG.left⟩⟩
  · intro h
    rcases h with ⟨hcovers, hengulfs⟩
    rcases Clause.generalize_ok_iff.mpr hengulfs.compatible with ⟨G, hok⟩
    have hgen : H.generalize (Taxonomy.rule L.taxonomy) C L.supply = (.ok G, _) := Prod.ext hok rfl
    rcases (hsame hcovers hgen).mpr hengulfs with ⟨hGH, hHG⟩
    rw [Stalls, see_eq_of_seen (.generalized hH hcovers hgen)]
    refine ⟨⟨_, rfl⟩, ?_⟩
    unfold SameHypothesis
    rw [hH]
    exact .some ⟨hHG, hGH⟩

/-!
# Counting the changes of a run
-/

def Alters (stage : Learner × Sample) : Prop :=
  ¬ stage.1.SameHypothesis (stage.1.observe stage.2).2

instance : DecidablePred Alters :=
  fun _ => inferInstanceAs (Decidable (¬ _))

def StallsAt (stage : Learner × Sample) : Prop :=
  stage.1.Stalls stage.2.clause stage.2.positive stage.1.config.reduces

instance : DecidablePred StallsAt :=
  fun stage => inferInstanceAs (Decidable (stage.1.Stalls _ _ _))

theorem countP_changes_of_train {L M : Learner} {samples : List Sample} {outcomes : List Outcome}
    (h : L.train samples = (.ok outcomes, M)) :
    outcomes.countP Outcome.changes =
      (L.stages samples).countP (fun stage => Alters stage) +
        (L.stages samples).countP (fun stage => StallsAt stage) := by
  induction samples generalizing L outcomes with
  | nil =>
      cases h
      rfl
  | cons s samples ih =>
      rcases exists_of_train_cons h with ⟨outcome, rest, rfl, hok, hrest⟩
      have hiff : outcome.changes = true ↔ Alters (L, s) ∨ StallsAt (L, s) := changes_iff hok
      have hnot : StallsAt (L, s) → ¬ Alters (L, s) := fun hstalls halters => halters hstalls.right
      rw [stages, List.countP_cons, List.countP_cons, List.countP_cons, ih hrest]
      by_cases hstalls : StallsAt (L, s)
      · have halters := hnot hstalls
        simp only [hiff, hstalls, halters, or_true, decide_true, decide_false, if_true,
          Bool.false_eq_true, if_false]
        omega
      · simp only [hiff, hstalls, or_false, decide_false, decide_eq_true_eq, Bool.false_eq_true,
          if_false]
        omega

/-- Without a taxonomy a report of changes counts the changes and the stalls.  A stall loses its
sample, needs a variable that absorbs two different things, and happens without reduction exactly
when the hypothesis does not cover the sample and engulfs it: of a ground sample every literal of
the hypothesis meets one, and differs from all that it meets in variables that face constants
only. -/
theorem changes_iff_alters_or_stalls {L : Learner} (hL : L.covers = Clause.subsumes)
    (htaxonomy : L.taxonomy = none) :
    (∀ C positive reduce outcome, (L.see C positive reduce).1 = .ok outcome →
      (outcome.changes = true ↔
        ¬ L.SameHypothesis (L.see C positive reduce).2 ∨ L.Stalls C positive reduce)) ∧
    (∀ C positive reduce, L.Stalls C positive reduce →
      (L.see C positive reduce).2.predicts C = false ∧
        ((L.see C positive reduce).2.supply.count ≤ L.supply.count + NameSupply.period →
          ∃ H, L.hypothesis = some H ∧ ¬ H.AbsorbsConsistently C)) ∧
    (∀ C H, L.hypothesis = some H →
      (L.see C true false).2.supply.count ≤ L.supply.count + NameSupply.period →
        (L.Stalls C true false ↔ H.subsumes C = false ∧ H.Engulfs C) ∧
        (C.Ground → (H.Engulfs C ↔ (∀ l ∈ H, ∀ m ∈ C, l.Comparable m → l.Compatible m) ∧
          (∀ l ∈ H, ∃ m ∈ C, l.Compatible m) ∧
          ∀ p, Clause.Aligned H C p → p.1 = p.2 ∨ ∃ x c, p = (.var x, .const c)))) ∧
    ∀ samples outcomes M, L.train samples = (.ok outcomes, M) →
      (Report.mk M.hypothesis outcomes).changeCount =
        (L.stages samples).countP (fun stage => Alters stage) +
          (L.stages samples).countP (fun stage => StallsAt stage) := by
  refine ⟨?_, ?_, ?_, ?_⟩
  · intro C positive reduce outcome hok
    exact changes_iff hok
  · intro C positive reduce hstalls
    exact ⟨hstalls.not_predicts hL, hstalls.not_absorbsConsistently hL htaxonomy⟩
  · intro C H hH hdraws
    exact ⟨stalls_iff_engulfs hL htaxonomy hH hdraws, Clause.engulfs_iff_of_ground⟩
  · intro samples outcomes M htrain
    exact countP_changes_of_train htrain

def loopSamples : List Sample :=
  [⟨.ofList [⟨true, "p", [.const "a", .const "a"]⟩], true⟩,
    ⟨.ofList [⟨true, "p", [.const "a", .const "b"]⟩], false⟩,
    ⟨.ofList [⟨true, "p", [.const "b", .const "b"]⟩], true⟩,
    ⟨.ofList [⟨true, "p", [.const "c", .const "d"]⟩], true⟩]

theorem changeCount_loopSamples :
    (∃ outcomes M, (new none).train loopSamples = (.ok outcomes, M) ∧
      (Report.mk M.hypothesis outcomes).changeCount = 3 ∧
      ((new none).stages loopSamples).countP (fun stage => Alters stage) = 2) ∧
    (Clause.ofList [⟨true, "p", [.var "V1", .var "V1"]⟩]).Engulfs
      (.ofList [⟨true, "p", [.const "c", .const "d"]⟩]) := by
  constructor
  · rcases htrain : (new none).train loopSamples with ⟨result, M⟩
    have hresult : ((new none).train loopSamples).1 =
      .ok [.adopted, .ignoredNegative, .generalized false, .generalized false] := by decide
    rw [htrain] at hresult
    cases hresult
    have hcount := (changes_iff_alters_or_stalls (L := new none) rfl rfl).right.right.right
      loopSamples _ M htrain
    exact ⟨_, M, rfl, hcount.trans (by decide), by decide⟩
  · refine ((changes_iff_alters_or_stalls (L := (new none).observeAll (loopSamples.take 3)) rfl
      rfl).right.right.left _ _ ?_ ?_).left.mp ?_ |>.right
    · decide
    · decide
    · decide

theorem exists_change_unreal : ¬ ∀ es C positive reduce outcome,
    (((new none).run es).see C positive reduce).1 = .ok outcome →
      (outcome.changes = true ↔
        ¬ ((new none).run es).SameHypothesis (((new none).run es).see C positive reduce).2) := by
  intro h
  have hchange := h (absorbedSamples.take 2) (.ofList [⟨true, "p", [.const "c", .const "d"]⟩])
    true false (.generalized false) (by decide)
  revert hchange
  decide

end Learner
end ClauseInduction
