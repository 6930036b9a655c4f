import ClauseInduction.Proofs.Learner.Run

/-!
# What a learner asks of its taxonomy

Generalization looks for the ancestor of two different constants only, so rules that agree on those
lead to the same generalizations, faults and new names, and a learner may exchange one taxonomy for
another.  A taxonomy without edges has no ancestor for different constants and is as good as none.
-/

namespace ClauseInduction

/-- The rules answer alike, except perhaps about a constant and itself. -/
def AncestorRule.AgreesWith (rule rule' : AncestorRule) : Prop :=
  ∀ a b, a ≠ b → rule a b = rule' a b

namespace AncestorRule.AgreesWith

open PairTable

variable {rule rule' : AncestorRule}

/-!
# Generalizations under rules that agree
-/

theorem symm (h : rule.AgreesWith rule') : rule'.AgreesWith rule :=
  fun a b hab => (h a b hab).symm

theorem decides (h : rule.AgreesWith rule') {s t u : Term} (hu : Decides rule s t u) :
    Decides rule' s t u := by
  cases hu with
  | same => exact .same s
  | ancestor hab hrule => exact .ancestor hab ((h _ _ hab).symm.trans hrule)
  | left x c => exact .left x c
  | right c x => exact .right c x

theorem settled?_eq (h : rule.AgreesWith rule') (s t : Term) :
    settled? rule s t = settled? rule' s t := by
  apply Option.ext
  intro u
  rw [settled?_eq_some_iff, settled?_eq_some_iff]
  exact ⟨h.decides, h.symm.decides⟩

theorem choose_eq (h : rule.AgreesWith rule') (reserved : List String) (s t : Term)
    (p : PairTable) : p.choose rule reserved s t = p.choose rule' reserved s t := by
  have hsettled := h.settled?_eq s t
  cases hs : settled? rule s t with
  | some u => rw [choose_eq_of_settled hs, choose_eq_of_settled (hsettled ▸ hs)]
  | none => rw [choose_eq_of_not_settled hs, choose_eq_of_not_settled (hsettled ▸ hs)]

theorem resolve_eq (h : rule.AgreesWith rule') (reserved : List String) (s t : Term)
    (p : PairTable) : p.resolve rule reserved s t = p.resolve rule' reserved s t := by
  unfold resolve
  rw [h.choose_eq]

theorem resolveAll_eq (h : rule.AgreesWith rule') (reserved : List String)
    (pairs : List (Term × Term)) (p : PairTable) :
    p.resolveAll rule reserved pairs = p.resolveAll rule' reserved pairs := by
  induction pairs generalizing p with
  | nil => rfl
  | cons pair pairs ih => rw [resolveAll, resolveAll, h.resolve_eq, ih]

theorem generalizePairs_eq (h : rule.AgreesWith rule') (reserved : List String)
    (pairs : List (Literal × Literal)) (G : Clause) (p : PairTable) :
    Clause.generalizePairs rule reserved pairs G p =
      Clause.generalizePairs rule' reserved pairs G p := by
  induction pairs generalizing G p with
  | nil => rfl
  | cons pair pairs ih =>
      rcases pair with ⟨l, m⟩
      simp only [Clause.generalizePairs, Literal.generalizeList_args_eq, h.resolveAll_eq, ih]

theorem generalize_eq (h : rule.AgreesWith rule') (A B : Clause) (supply : NameSupply) :
    A.generalize rule B supply = A.generalize rule' B supply := by
  unfold Clause.generalize
  rw [h.generalizePairs_eq]

end AncestorRule.AgreesWith

namespace Learner

/-!
# Learning with another taxonomy
-/

section Exchange

variable {L : Learner} {taxonomy : Option Taxonomy}

theorem see_useTaxonomy
    (h : (Taxonomy.rule taxonomy).AgreesWith (Taxonomy.rule L.taxonomy)) (C : Clause)
    (positive reduce : Bool) :
    (L.useTaxonomy taxonomy).see C positive reduce =
      ((L.see C positive reduce).1, (L.see C positive reduce).2.useTaxonomy taxonomy) := by
  rcases hsee : L.see C positive reduce with ⟨result, M⟩
  apply see_eq_of_seen
  cases seen_of_see_eq hsee with
  | ignored => exact .ignored
  | adopted hnone => exact .adopted hnone
  | covered hsome hcovers => exact .covered hsome hcovers
  | @failed H e supply hsome hcovers hgen =>
      have hgen' : H.generalize (Taxonomy.rule taxonomy) C L.supply = (.error e, supply) := by
        rw [h.generalize_eq, hgen]
      exact .failed (L := L.useTaxonomy taxonomy) hsome hcovers hgen'
  | @generalized H G supply hsome hcovers hgen =>
      have hgen' : H.generalize (Taxonomy.rule taxonomy) C L.supply = (.ok G, supply) := by
        rw [h.generalize_eq, hgen]
      exact .generalized (L := L.useTaxonomy taxonomy) hsome hcovers hgen'

theorem train_useTaxonomy
    (h : (Taxonomy.rule taxonomy).AgreesWith (Taxonomy.rule L.taxonomy)) (samples : List Sample) :
    (L.useTaxonomy taxonomy).train samples =
      ((L.train samples).1, (L.train samples).2.useTaxonomy taxonomy) := by
  induction samples generalizing L with
  | nil => rfl
  | cons s samples ih =>
      have hobserve : (L.useTaxonomy taxonomy).observe s =
          ((L.observe s).1, (L.observe s).2.useTaxonomy taxonomy) :=
        see_useTaxonomy h s.clause s.positive L.config.reduces
      have hkept : (L.observe s).2.taxonomy = L.taxonomy :=
        (L.step_setup (.see s.clause s.positive L.config.reduces)).right
      have htail := ih (L := (L.observe s).2) (hkept ▸ h)
      rw [train, train, hobserve]
      rcases hs : L.observe s with ⟨e | outcome, M⟩
      · rfl
      · rw [hs] at htail
        simp only [htail]
        rcases M.train samples with ⟨fault | outcomes, N⟩ <;> rfl

end Exchange

end Learner

/-!
# The taxonomy without edges
-/

theorem Taxonomy.rule_empty_agreesWith_none :
    (Taxonomy.rule (some ∅)).AgreesWith (Taxonomy.rule none) := by
  intro a b hab
  have hmeet : (∅ : ParentMap).meetWithin 1 a b = none := by
    rw [ParentMap.meetWithin, if_neg hab]
    rfl
  exact hmeet

theorem Taxonomy.ofFacts_nil : Taxonomy.ofFacts [] = .ok ∅ :=
  rfl

end ClauseInduction
