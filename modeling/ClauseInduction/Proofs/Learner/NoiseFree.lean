import ClauseInduction.Proofs.Learner.Run

/-!
# Noise-free runs

A clause that subsumes everything a learner has taken subsumes its hypothesis as well: a
generalization lies above every common lower bound of the two clauses, and what reduction leaves is
equivalent to it.  So the hypothesis misses whatever such a clause misses, which is why negative
samples can be ignored when the samples come from one target clause.
-/

namespace ClauseInduction
namespace Learner

/-!
# One call
-/

theorem Seen.subsumes_hypothesis {L M : Learner} {C : Clause} {positive reduce : Bool}
    {result : Except ArityClash Outcome} (hL : L.covers = Clause.subsumes)
    (hseen : L.Seen C reduce positive result M) {T : Clause}
    (hhypothesis : ∀ H, L.hypothesis = some H → T.Subsumes H)
    (hsample : ∀ outcome, positive = true → result = .ok outcome → T.Subsumes C) :
    ∀ H, M.hypothesis = some H → T.Subsumes H := by
  intro H hH
  cases hseen with
  | ignored => exact hhypothesis H hH
  | adopted hnone =>
      cases hH
      exact hsample .adopted rfl rfl
  | covered hsome hcovers => exact hhypothesis H hH
  | failed hsome hcovers hgen => exact hhypothesis H hH
  | @generalized K G supply hsome hcovers hgen =>
      cases hH
      -- no matter how many names were drawn: this direction does not need them to differ
      rcases Clause.exists_isGeneralization hgen with ⟨φ, hG, -⟩
      have hTG : T.Subsumes G := hG.least (hhypothesis K hsome) (hsample _ rfl rfl)
      exact hTG.trans (simplify_equivalent hL reduce G).left

/-!
# Runs
-/

theorem subsumes_hypothesis_run {L : Learner} (hL : L.covers = Clause.subsumes) {T : Clause}
    {es : List Event} (h : ∀ C, L.Taken es C → T.Subsumes C) :
    ∀ H, (L.run es).hypothesis = some H → T.Subsumes H := by
  induction es using List.reverseRecOn with
  | nil =>
      intro H hH
      exact h H (Or.inl hH)
  | append_singleton es e ih =>
      have hold := ih fun C hC => h C (taken_concat.mpr (Or.inl hC))
      rw [run_concat]
      cases e with
      | configure config => exact hold
      | see C positive reduce =>
          rcases hsee : (L.run es).see C positive reduce with ⟨result, M⟩
          rw [step_eq_of_see_eq hsee]
          refine (seen_of_see_eq hsee).subsumes_hypothesis ?_ hold ?_
          · exact (L.run_setup es).left.trans hL
          · intro outcome hpositive hresult
            cases hpositive
            cases hresult
            exact h C (taken_concat.mpr (Or.inr ⟨reduce, outcome, rfl, congrArg Prod.fst hsee⟩))

theorem subsumes_hypothesis_of_positives {L : Learner} (hL : L.covers = Clause.subsumes)
    (hnone : L.hypothesis = none) {T : Clause} {es : List Event}
    (h : ∀ C reduce, .see C true reduce ∈ es → T.Subsumes C) {H : Clause}
    (hH : (L.run es).hypothesis = some H) : T.Subsumes H := by
  refine subsumes_hypothesis_run hL ?_ H hH
  intro C hC
  rcases hC with hfirst | haccepted
  · rw [hnone] at hfirst
    cases hfirst
  · rcases haccepted.mem with ⟨reduce, hmem⟩
    exact h C reduce hmem

theorem not_predicts_of_separated {L : Learner} (hL : L.covers = Clause.subsumes) {T : Clause}
    (hT : ∀ H, L.hypothesis = some H → T.Subsumes H) {C : Clause} (hC : ¬ T.Subsumes C) :
    L.predicts C = false := by
  rw [Bool.eq_false_iff]
  intro hpredicts
  rcases (predicts_iff hL).mp hpredicts with ⟨H, hH, hHC⟩
  exact hC ((hT H hH).trans hHC)

/-- When one clause subsumes all positive samples and no negative one, it stays below the
hypothesis, and the learner never takes a negative sample of the run for a positive one. -/
theorem target_subsumes_hypothesis {L : Learner} (hL : L.covers = Clause.subsumes) {T : Clause}
    (hinit : ∀ H, L.hypothesis = some H → T.subsumes H = true) {es : List Event}
    (hpositive : ∀ C reduce, .see C true reduce ∈ es → T.subsumes C = true) :
    (∀ es', es' <+: es → ∀ H, (L.run es').hypothesis = some H → T.subsumes H = true) ∧
      ((∀ C reduce, .see C false reduce ∈ es → T.subsumes C = false) →
        ∀ es', es' <+: es → ∀ C reduce, .see C false reduce ∈ es →
          (L.run es').predicts C = false) := by
  have hbelow : ∀ es', es' <+: es → ∀ H, (L.run es').hypothesis = some H → T.Subsumes H := by
    intro es' hpart
    refine subsumes_hypothesis_run hL ?_
    intro C hC
    rcases hC with hfirst | haccepted
    · exact Clause.subsumes_iff.mp (hinit C hfirst)
    · rcases haccepted.mem with ⟨reduce, hmem⟩
      exact Clause.subsumes_iff.mp (hpositive C reduce (hpart.subset hmem))
  constructor
  · intro es' hpart H hH
    exact Clause.subsumes_iff.mpr (hbelow es' hpart H hH)
  · intro hnegative es' hpart C reduce hmem
    have hcovers : (L.run es').covers = Clause.subsumes := (L.run_setup es').left.trans hL
    exact not_predicts_of_separated hcovers (hbelow es' hpart)
      (Clause.subsumes_eq_false_iff.mp (hnegative C reduce hmem))

theorem not_predicts_stray_pet :
    (run (new (Taxonomy.ofFacts [Taxonomy.isa "cat" "mammal", Taxonomy.isa "dog" "mammal"]).toOption)
      [.see (.ofList [⟨true, "pet", [.const "cat"]⟩, ⟨true, "owns", [.const "eva", .const "cat"]⟩])
          true false,
        .see (.ofList [⟨true, "pet", [.const "cat"]⟩, ⟨true, "owns", [.const "eva", .const "dog"]⟩])
          false false,
        .see (.ofList [⟨true, "pet", [.const "dog"]⟩, ⟨true, "owns", [.const "tom", .const "dog"]⟩])
          true true]).predicts
      (.ofList [⟨true, "pet", [.const "cat"]⟩, ⟨true, "owns", [.const "eva", .const "dog"]⟩]) =
        false := by
  refine (target_subsumes_hypothesis
    (T := .ofList [⟨true, "pet", [.var "X"]⟩, ⟨true, "owns", [.var "Y", .var "X"]⟩])
    rfl ?_ ?_).right ?_ _ (List.prefix_refl _) _ false ?_
  · intro H hH
    cases hH
  · intro C reduce h
    simp only [List.mem_cons, List.not_mem_nil, or_false] at h
    rcases h with h | h | h <;> cases h <;> decide
  · intro C reduce h
    simp only [List.mem_cons, List.not_mem_nil, or_false] at h
    rcases h with h | h | h <;> cases h
    decide
  · simp

end Learner
end ClauseInduction
