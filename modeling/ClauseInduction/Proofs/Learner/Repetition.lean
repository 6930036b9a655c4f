import ClauseInduction.Proofs.Generalization.Overlay
import ClauseInduction.Proofs.Learner.Coverage
import ClauseInduction.Proofs.Learner.Persistence

/-!
# Samples that are seen again

A learner without a taxonomy that absorbs consistently still predicts a sample that it has accepted,
so seeing the sample again changes nothing.  With a taxonomy the coverage test does not know the
ancestors that stand for the constants of the sample, and the sample is generalized with once more.
As long as the samples have constants at corresponding places, the hypothesis lies over all of them,
and no literal is lost then; literals may be added.
-/

namespace ClauseInduction
namespace Learner

/-!
# Hypotheses lie over the accepted samples
-/

theorem exists_accepted_of_hypothesis {L : Learner} (hnone : L.hypothesis = none) {es : List Event}
    {H : Clause} (hH : (L.run es).hypothesis = some H) : ∃ D, L.Accepted es D := by
  induction es using List.reverseRecOn generalizing H with
  | nil =>
      rw [run, List.foldl_nil, hnone] at hH
      cases hH
  | append_singleton es e ih =>
      have hold : ∀ K, (L.run es).hypothesis = some K → ∃ D, L.Accepted (es ++ [e]) D := by
        intro K hK
        rcases ih hK with ⟨D, hD⟩
        exact ⟨D, accepted_concat.mpr (Or.inl hD)⟩
      rw [run_concat] at hH
      cases e with
      | configure config => exact hold H hH
      | see C positive reduce =>
          rcases hsee : (L.run es).see C positive reduce with ⟨result, M⟩
          rw [step_eq_of_see_eq hsee] at hH
          cases seen_of_see_eq hsee with
          | ignored => exact hold H hH
          | adopted hempty =>
              refine ⟨C, accepted_concat.mpr (Or.inr ⟨reduce, .adopted, rfl, ?_⟩)⟩
              rw [hsee]
          | covered hsome hcovers => exact hold _ hsome
          | failed hsome hcovers hgen => exact hold _ hsome
          | generalized hsome hcovers hgen => exact hold _ hsome

theorem Seen.liesOver {L M : Learner} {C : Clause} {positive reduce : Bool}
    {result : Except ArityClash Outcome} (hL : L.covers = Clause.subsumes)
    (hseen : L.Seen C reduce positive result M) {B : Clause}
    (hhypothesis : ∀ H, L.hypothesis = some H → H.LiesOver L.taxonomy B)
    (hsome : L.hypothesis ≠ none)
    (haligned : ∀ outcome, positive = true → result = .ok outcome → B.AlignsConstants C) :
    ∀ H, M.hypothesis = some H → H.LiesOver L.taxonomy B := by
  intro H hH
  cases hseen with
  | ignored => exact hhypothesis H hH
  | adopted hnone => exact absurd hnone hsome
  | covered hsome hcovers => exact hhypothesis H hH
  | failed hsome hcovers hgen => exact hhypothesis H hH
  | @generalized K G supply hsome hcovers hgen =>
      cases hH
      rcases Clause.exists_isGeneralization_mintsVars hgen with ⟨φ, hG, hvars, -⟩
      have hGB := (hhypothesis K hsome).generalize (haligned _ rfl rfl) hG hvars
      exact hGB.of_subset (simplify_subset hL reduce G)

theorem Seen.liesOver_sample {L M : Learner} {C : Clause} {reduce : Bool} {outcome : Outcome}
    (hL : L.covers = Clause.subsumes) (hseen : L.Seen C reduce true (.ok outcome) M)
    (hC : C.AlignsConstants C)
    (hhypothesis : ∀ H, L.hypothesis = some H →
      ∃ B, H.LiesOver L.taxonomy B ∧ B.AlignsConstants C) :
    ∀ H, M.hypothesis = some H → H.LiesOver L.taxonomy C := by
  intro H hH
  cases hseen with
  | adopted hnone =>
      cases hH
      exact Clause.liesOver_self hC
  | @covered K hsome hcovers =>
      rw [hsome] at hH
      cases hH
      rcases hhypothesis H hsome with ⟨B, hover, haligned⟩
      rw [hL] at hcovers
      exact hover.of_subsumes haligned (Clause.subsumes_iff.mp hcovers)
  | @generalized K G supply hsome hcovers hgen =>
      cases hH
      rcases hhypothesis K hsome with ⟨B, hover, haligned⟩
      rcases Clause.exists_isGeneralization_mintsVars hgen with ⟨φ, hG, hvars, -⟩
      exact (hover.generalize_right haligned hC hG hvars).of_subset (simplify_subset hL reduce G)

theorem liesOver_run {L : Learner} (hL : L.covers = Clause.subsumes) (hnone : L.hypothesis = none)
    {es : List Event}
    (haligned : ∀ A B, L.Accepted es A → L.Accepted es B → A.AlignsConstants B) :
    ∀ H, (L.run es).hypothesis = some H → ∀ B, L.Accepted es B → H.LiesOver L.taxonomy B := by
  induction es using List.reverseRecOn with
  | nil =>
      intro H hH B hB
      exact absurd hB (not_accepted_nil L B)
  | append_singleton es e ih =>
      have hold := ih fun A B hA hB =>
        haligned A B (accepted_concat.mpr (Or.inl hA)) (accepted_concat.mpr (Or.inl hB))
      have hcovers : (L.run es).covers = Clause.subsumes := (L.run_setup es).left.trans hL
      have htaxonomy : (L.run es).taxonomy = L.taxonomy := (L.run_setup es).right
      rw [run_concat]
      intro H hH B hB
      cases e with
      | configure config =>
          rcases accepted_concat.mp hB with hB | ⟨reduce, outcome, he, -⟩
          · exact hold H hH B hB
          · cases he
      | see C positive reduce =>
          rcases hsee : (L.run es).see C positive reduce with ⟨result, M⟩
          rw [step_eq_of_see_eq hsee] at hH
          have hseen := seen_of_see_eq hsee
          rw [← htaxonomy] at hold ⊢
          have hC : ∀ outcome, positive = true → result = .ok outcome →
              L.Accepted (es ++ [.see C positive reduce]) C := by
            intro outcome hpositive hresult
            cases hpositive
            refine accepted_concat.mpr (Or.inr ⟨reduce, outcome, rfl, ?_⟩)
            rw [hsee, hresult]
          rcases accepted_concat.mp hB with hbefore | ⟨reduce', outcome, he, hok⟩
          · rcases hbefore.mem with ⟨reduce', hmem⟩
            refine hseen.liesOver hcovers (fun K hK => hold K hK B hbefore)
              (hypothesis_run_ne_none (Or.inl ⟨B, reduce', hmem⟩)) ?_ H hH
            intro outcome hpositive hresult
            exact haligned B C hB (hC outcome hpositive hresult)
          · cases he
            rw [hsee] at hok
            cases hok
            refine hseen.liesOver_sample hcovers (haligned B B hB hB) ?_ H hH
            intro K hK
            rcases exists_accepted_of_hypothesis hnone hK with ⟨D, hD⟩
            exact ⟨D, hold K hK D hD, haligned D B (accepted_concat.mpr (Or.inl hD)) hB⟩

/-!
# Seeing a sample again
-/

theorem Seen.subsumes_after {L M : Learner} {C : Clause} {reduce : Bool}
    {result : Except ArityClash Outcome} (hL : L.covers = Clause.subsumes)
    (hseen : L.Seen C reduce true result M) {H H' : Clause} (hH : L.hypothesis = some H)
    (hH' : M.hypothesis = some H') (hover : H.LiesOver L.taxonomy C)
    (hkeeps : H.KeepsAncestors L.taxonomy C) :
    H.Subsumes H' ∧ ((∀ l ∈ C, ∀ m ∈ C, l.Comparable m → l = m) → H'.Subsumes H) := by
  have hsame : M.hypothesis = L.hypothesis →
      H.Subsumes H' ∧ ((∀ l ∈ C, ∀ m ∈ C, l.Comparable m → l = m) → H'.Subsumes H) := by
    intro hkept
    rw [hkept, hH] at hH'
    cases hH'
    exact ⟨Clause.Subsumes.refl H, fun _ => Clause.Subsumes.refl H⟩
  cases hseen with
  | adopted hnone =>
      rw [hnone] at hH
      cases hH
  | covered hsome hcovers => exact hsame rfl
  | failed hsome hcovers hgen => exact hsame rfl
  | @generalized K G supply hsome hcovers hgen =>
      rw [hsome] at hH
      cases hH
      cases hH'
      rcases Clause.exists_isGeneralization hgen with ⟨φ, hG, -⟩
      have hequivalent := simplify_equivalent hL reduce G
      constructor
      · exact (Clause.Subsumes.of_subset (hover.subset_generalize hkeeps hG)).trans hequivalent.left
      · intro hC
        exact hequivalent.right.trans
          (Clause.Subsumes.of_subset (hover.generalize_subset hkeeps hG hC))

theorem see_eq_of_predicts {L : Learner} {C : Clause} (h : L.predicts C = true) (reduce : Bool) :
    L.see C true reduce = (.ok .covered, L) := by
  rcases (Option.any_eq_true _ _).mp h with ⟨H, hH, hcovers⟩
  exact see_eq_of_seen (.covered hH hcovers)

/-- When an accepted sample is seen again, the new hypothesis subsumes the old one up to ancestors.
The old one subsumes the new one if the samples have constants at corresponding places, and nothing
changes if there is no taxonomy and no variable absorbs two different things. -/
theorem exists_hypothesis_see_again {L : Learner} (hL : L.covers = Clause.subsumes)
    (hnone : L.hypothesis = none) {es : List Event} (hground : ∀ e ∈ es, e.Shows Clause.Ground)
    {C : Clause} (hC : L.Accepted es C) (reduce : Bool) :
    ∃ H H', (L.run es).hypothesis = some H ∧
      ((L.run es).see C true reduce).2.hypothesis = some H' ∧
      ((∀ A B, L.Accepted es A → L.Accepted es B → A.AlignsConstants B) →
        H.KeepsAncestors L.taxonomy C → H.subsumes H' = true ∧
          ((∀ l ∈ C, ∀ m ∈ C, l.Comparable m → l = m) → H'.subsumes H = true)) ∧
      (((L.run es).see C true reduce).2.supply.count ≤
          (L.run es).supply.count + NameSupply.period →
        H'.SubsumesUpTo L.taxonomy H ∧ (L.taxonomy = none → H'.subsumes H = true)) ∧
      (L.taxonomy = none → L.DrawsWithinPeriod es → L.AbsorbsConsistently es → H' = H) := by
  have hcovers : (L.run es).covers = Clause.subsumes := (L.run_setup es).left.trans hL
  have htaxonomy : (L.run es).taxonomy = L.taxonomy := (L.run_setup es).right
  rcases hC.mem with ⟨reduce', hmem⟩
  have hCground : C.Ground := hground _ hmem
  have hbefore : (L.run es).hypothesis ≠ none := hypothesis_run_ne_none (Or.inl ⟨C, reduce', hmem⟩)
  rcases Option.ne_none_iff_exists'.mp hbefore with ⟨H, hH⟩
  rcases hsee : (L.run es).see C true reduce with ⟨result, M⟩
  have hseen := seen_of_see_eq hsee
  rcases Option.ne_none_iff_exists'.mp (hseen.hypothesis_ne_none (Or.inl rfl)) with ⟨H', hH'⟩
  refine ⟨H, H', hH, hH', ?_, ?_, ?_⟩
  · intro haligned hkeeps
    have hover := liesOver_run hL hnone haligned H hH C hC
    rw [← htaxonomy] at hover hkeeps
    rcases hseen.subsumes_after hcovers hH hH' hover hkeeps with ⟨hafter, hback⟩
    exact ⟨Clause.subsumes_iff.mpr hafter, fun hC => Clause.subsumes_iff.mpr (hback hC)⟩
  · intro hdraws
    rcases hseen.subsumesUpTo_before hcovers hCground hdraws hH with ⟨K, hK, hup⟩
    rw [hH'] at hK
    cases hK
    rw [htaxonomy] at hup
    refine ⟨hup, fun hempty => ?_⟩
    rw [hempty, Clause.subsumesUpTo_none] at hup
    exact Clause.subsumes_iff.mpr hup
  · intro hempty hdraws habsorb
    have hpredicts := habsorb.predicts_taken hL hempty hdraws C (Or.inr hC)
    rw [see_eq_of_predicts hpredicts reduce] at hsee
    cases hsee
    rw [hH] at hH'
    cases hH'
    rfl

def petTaxonomy : Option Taxonomy :=
  (Taxonomy.ofFacts [Taxonomy.isa "cat" "mammal", Taxonomy.isa "dog" "mammal"]).toOption

def catSample : Clause :=
  .ofList [⟨true, "pet", [.const "cat"]⟩,
    ⟨true, "owns", [.app ⟨"mother", 1⟩ [.const "eva"], .const "cat"]⟩]

def petSamples : List Event :=
  [.see catSample true false,
    .configure { stem := "X" },
    .see (.ofList [⟨true, "pet", [.const "dog"]⟩,
      ⟨true, "owns", [.app ⟨"mother", 1⟩ [.const "tom"], .const "dog"]⟩]) true true]

/-- The hypothesis has pets that are mammals, so the cat is not covered when it is seen again.
Without a taxonomy it is. -/
theorem equivalent_see_again_cat :
    (∃ H H', ((new petTaxonomy).run petSamples).hypothesis = some H ∧
      (((new petTaxonomy).run petSamples).see catSample true true).2.hypothesis = some H' ∧
      H.subsumes H' = true ∧ H'.subsumes H = true ∧ H'.SubsumesUpTo petTaxonomy H) ∧
    ∃ H, ((new none).run petSamples).hypothesis = some H ∧
      (((new none).run petSamples).see catSample true true).2.hypothesis = some H := by
  have haccepted : (new petTaxonomy).Accepted petSamples catSample :=
    ⟨[], false, petSamples.tail, .adopted, rfl, by decide⟩
  have haligned : ∀ A B, (new petTaxonomy).Accepted petSamples A →
      (new petTaxonomy).Accepted petSamples B → A.AlignsConstants B := by
    intro A B hA hB
    rcases hA.mem with ⟨r, hA⟩
    rcases hB.mem with ⟨r', hB⟩
    simp only [petSamples, List.mem_cons, List.not_mem_nil, or_false] at hA hB
    rcases hA with hA | hA | hA <;> cases hA <;> rcases hB with hB | hB | hB <;> cases hB <;> decide
  rcases exists_hypothesis_see_again (L := new petTaxonomy) rfl rfl (by decide) haccepted true with
    ⟨H, H', hH, hH', hover, hup, -⟩
  have hvalue : H = .ofList [⟨true, "pet", [.const "mammal"]⟩,
      ⟨true, "owns", [.app ⟨"mother", 1⟩ [.var "X1"], .const "mammal"]⟩] :=
    Option.some.inj (hH.symm.trans (by decide))
  have hkeeps : H.KeepsAncestors petTaxonomy catSample := by
    have hpairs : ∀ l ∈ H.literals, ∀ m ∈ catSample.literals, l.Compatible m →
        ∀ p ∈ l.aligned m, p ∈ [(Term.const "mammal", Term.const "cat"),
          (Term.var "X1", Term.const "eva")] := by
      rw [hvalue]
      decide
    intro c d hp _
    rcases hp with ⟨l, hl, m, hm, hlm, hp⟩
    rcases List.mem_cons.mp (hpairs l hl m hm hlm _ hp) with heq | hrest
    · cases heq
      exact Or.inr (by decide)
    · cases List.mem_singleton.mp hrest
  rcases hover haligned hkeeps with ⟨hafter, hback⟩
  refine ⟨⟨H, H', hH, hH', hafter, hback (by decide), (hup (by decide)).left⟩, ?_⟩
  have haccepted' : (new none).Accepted petSamples catSample :=
    ⟨[], false, petSamples.tail, .adopted, rfl, by decide⟩
  rcases exists_hypothesis_see_again (L := new none) rfl rfl (by decide) haccepted' true with
    ⟨K, K', hK, hK', -, -, hkept⟩
  rw [hkept rfl (by decide) (by decide)] at hK'
  exact ⟨K, hK, hK'⟩

/-- The hypothesis lifts the constants of this sample in two ways, and it has one variable for the
last two terms. -/
def crossSample : Clause :=
  .ofList [⟨true, "p", [.const "c", .const "d"]⟩, ⟨true, "p", [.const "d", .const "c"]⟩,
    ⟨true, "q", [.app ⟨"f", 1⟩ [.const "d"], .app ⟨"f", 1⟩ [.const "c"]]⟩]

def crossSamples : List Event :=
  [.see (.ofList [⟨true, "p", [.const "c", .const "c"]⟩,
      ⟨true, "q", [.app ⟨"f", 1⟩ [.const "c"], .app ⟨"f", 1⟩ [.const "d"]]⟩]) true false,
    .see crossSample true false,
    .see (.ofList [⟨true, "p", [.const "c", .const "c"]⟩,
      ⟨true, "q", [.const "g", .const "g"]⟩]) true false]

def crossTaxonomy : Option Taxonomy :=
  (Taxonomy.ofFacts [Taxonomy.isa "c" "w", Taxonomy.isa "d" "w"]).toOption

theorem not_subsumes_see_again_cross :
    (∀ e ∈ crossSamples, e.Shows Clause.Ground) ∧
      (new crossTaxonomy).Accepted crossSamples crossSample ∧
      ∃ H H', ((new crossTaxonomy).run crossSamples).hypothesis = some H ∧
        (((new crossTaxonomy).run crossSamples).see crossSample true false).2.hypothesis =
          some H' ∧
        H.subsumes H' = false ∧ H'.subsumes H = false := by
  refine ⟨by decide, ⟨crossSamples.take 1, false, crossSamples.drop 2, .generalized false, rfl,
    by decide⟩, ?_⟩
  refine ⟨.ofList [⟨true, "p", [.const "c", .const "w"]⟩, ⟨true, "p", [.const "w", .const "c"]⟩,
      ⟨true, "q", [.var "V1", .var "V1"]⟩],
    .ofList [⟨true, "p", [.const "c", .const "w"]⟩, ⟨true, "p", [.const "w", .const "w"]⟩,
      ⟨true, "p", [.const "w", .const "c"]⟩, ⟨true, "q", [.var "V2", .var "V3"]⟩],
    by decide, by decide, by decide, by decide⟩

end Learner
end ClauseInduction
