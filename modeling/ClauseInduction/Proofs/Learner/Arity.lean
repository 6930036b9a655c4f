import ClauseInduction.Proofs.Learner.Run

/-!
# Samples that agree on arities

When every predicate has one arity in all samples, it has that arity in the hypothesis as well, and
no call fails.
-/

namespace ClauseInduction

namespace Clause

def HasArities (arity : String → Nat) (C : Clause) : Prop :=
  ∀ l ∈ C, l.arity = arity l.predicate

instance (arity : String → Nat) : DecidablePred (HasArities arity) :=
  fun C => inferInstanceAs (Decidable (∀ l ∈ C.literals, l.arity = arity l.predicate))

theorem HasArities.compatible {arity : String → Nat} {A B : Clause} (hA : A.HasArities arity)
    (hB : B.HasArities arity) {l m : Literal} (hl : l ∈ A) (hm : m ∈ B) (hlm : l.Comparable m) :
    l.Compatible m := by
  refine ⟨hlm, ?_⟩
  rw [hA l hl, hB m hm, hlm.right]

theorem HasArities.of_subset {arity : String → Nat} {A B : Clause} (hA : A.HasArities arity)
    (hBA : B ⊆ A) : B.HasArities arity :=
  fun l hl => hA l (hBA l hl)

theorem IsGeneralization.hasArities {rule : AncestorRule} {arity : String → Nat} {A B G : Clause}
    {φ : Term → Term → Term} (h : IsGeneralization rule A B G φ) (hA : A.HasArities arity) :
    G.HasArities arity := by
  intro g hg
  rcases (h.mem_iff g).mp hg with ⟨l, hl, m, hm, hlm, rfl⟩
  rw [(Literal.combine_compatible hlm φ).right]
  exact hA l hl

theorem HasArities.exists_generalize {arity : String → Nat} {A B : Clause}
    (hA : A.HasArities arity) (hB : B.HasArities arity) (rule : AncestorRule)
    (supply : NameSupply) : ∃ G next, A.generalize rule B supply = (.ok G, next) := by
  have hcompatible : ∀ l ∈ A, ∀ m ∈ B, l.Comparable m → l.Compatible m :=
    fun l hl m hm hlm => hA.compatible hB hl hm hlm
  rcases generalize_ok_iff.mpr hcompatible with ⟨G, hG⟩
  exact ⟨G, _, Prod.ext hG rfl⟩

end Clause

namespace Learner

theorem Seen.hasArities {L M : Learner} {C : Clause} {positive reduce : Bool}
    {result : Except ArityClash Outcome} {arity : String → Nat} (hL : L.covers = Clause.subsumes)
    (hseen : L.Seen C reduce positive result M) (hC : C.HasArities arity)
    (hhypothesis : ∀ H, L.hypothesis = some H → H.HasArities arity) :
    (∃ outcome, result = .ok outcome) ∧ ∀ H, M.hypothesis = some H → H.HasArities arity := by
  cases hseen with
  | ignored => exact ⟨⟨_, rfl⟩, hhypothesis⟩
  | adopted hnone =>
      refine ⟨⟨_, rfl⟩, fun H hH => ?_⟩
      cases hH
      exact hC
  | covered hsome hcovers => exact ⟨⟨_, rfl⟩, hhypothesis⟩
  | @failed H e supply hsome hcovers hgen =>
      rcases (hhypothesis H hsome).exists_generalize hC (Taxonomy.rule L.taxonomy) L.supply with
        ⟨G, next, hok⟩
      rw [hgen] at hok
      cases hok
  | @generalized H G supply hsome hcovers hgen =>
      refine ⟨⟨_, rfl⟩, fun K hK => ?_⟩
      cases hK
      rcases Clause.exists_isGeneralization hgen with ⟨φ, hG, -⟩
      exact (hG.hasArities (hhypothesis H hsome)).of_subset (simplify_subset hL reduce G)

theorem hasArities_see {L : Learner} {arity : String → Nat} (hL : L.covers = Clause.subsumes)
    {C : Clause} (hC : C.HasArities arity)
    (hhypothesis : ∀ H, L.hypothesis = some H → H.HasArities arity) (positive reduce : Bool) :
    ∀ H, (L.see C positive reduce).2.hypothesis = some H → H.HasArities arity := by
  rcases hsee : L.see C positive reduce with ⟨result, M⟩
  exact ((seen_of_see_eq hsee).hasArities hL hC hhypothesis).right

theorem hasArities_run {L : Learner} {arity : String → Nat} (hL : L.covers = Clause.subsumes)
    {es : List Event} (hshows : ∀ e ∈ es, e.Shows (Clause.HasArities arity))
    (hhypothesis : ∀ H, L.hypothesis = some H → H.HasArities arity) :
    ∀ H, (L.run es).hypothesis = some H → H.HasArities arity := by
  induction es generalizing L with
  | nil => exact hhypothesis
  | cons e es ih =>
      rcases List.forall_mem_cons.mp hshows with ⟨hfirst, hrest⟩
      refine ih ((L.step_setup e).left.trans hL) hrest ?_
      cases e with
      | configure config => exact hhypothesis
      | see C positive reduce => exact hasArities_see hL hfirst hhypothesis positive reduce

theorem accepted_of_hasArities {L : Learner} {arity : String → Nat}
    (hL : L.covers = Clause.subsumes) (hnone : L.hypothesis = none) {es : List Event}
    (hshows : ∀ e ∈ es, e.Shows (Clause.HasArities arity)) {C : Clause} {reduce : Bool}
    (hmem : .see C true reduce ∈ es) : L.Accepted es C := by
  rcases List.append_of_mem hmem with ⟨before, after, rfl⟩
  have hbefore : ∀ H, (L.run before).hypothesis = some H → H.HasArities arity := by
    apply hasArities_run hL
    · intro e he
      exact hshows e (List.mem_append_left _ he)
    · intro H hH
      rw [hnone] at hH
      cases hH
  rcases hsee : (L.run before).see C true reduce with ⟨result, M⟩
  have hC : C.HasArities arity := hshows _ hmem
  rcases ((seen_of_see_eq hsee).hasArities ((L.run_setup before).left.trans hL) hC hbefore).left
    with ⟨outcome, houtcome⟩
  exact ⟨before, reduce, after, outcome, rfl, (congrArg Prod.fst hsee).trans houtcome⟩

end Learner

end ClauseInduction
