import Mathlib.Algebra.GroupWithZero.Nat
import ClauseInduction.Proofs.Generalization.Table

/-!
# Runs of one table

A table answers one pair after the other.  Its entries never change, so the last table still holds
every answer that was given on the way, and what the entries of a table satisfy holds of all answers
of the run at once.
-/

namespace ClauseInduction
namespace PairTable

/-!
# Pairs that need a variable
-/

/-- Two different terms that are neither two constants with an ancestor nor a constant facing a
variable. -/
def NeedsVar (rule : AncestorRule) (pair : Term × Term) : Prop :=
  pair.1 ≠ pair.2 ∧ (∀ a b, pair = (.const a, .const b) → rule a b = none) ∧
    ∀ c x, pair ≠ (.const c, .var x) ∧ pair ≠ (.var x, .const c)

theorem settled?_eq_none_iff {rule : AncestorRule} {pair : Term × Term} :
    settled? rule pair.1 pair.2 = none ↔ NeedsVar rule pair := by
  rw [Option.eq_none_iff_forall_ne_some]
  simp only [ne_eq, settled?_eq_some_iff]
  constructor
  · intro h
    refine ⟨?_, ?_, ?_⟩
    · intro hsame
      apply h pair.1
      rw [← hsame]
      exact .same pair.1
    · rintro a b rfl
      by_contra hrule
      rcases Option.ne_none_iff_exists'.mp hrule with ⟨c, hc⟩
      by_cases hab : a = b
      · subst hab
        exact h _ (.same _)
      · exact h _ (.ancestor hab hc)
    · intro c x
      constructor
      · rintro rfl
        exact h _ (.right c x)
      · rintro rfl
        exact h _ (.left x c)
  · intro h u hu
    rcases pair with ⟨s, t⟩
    rcases h with ⟨hne, hancestor, hfacing⟩
    cases hu with
    | same => exact hne rfl
    | @ancestor a b c hab hrule =>
        rw [hancestor a b rfl] at hrule
        cases hrule
    | left x c => exact (hfacing c x).right rfl
    | right c x => exact (hfacing c x).left rfl

instance (rule : AncestorRule) : DecidablePred (NeedsVar rule) :=
  fun _ => decidable_of_iff _ settled?_eq_none_iff

theorem Decides.mem_vars {rule : AncestorRule} {s t : Term} {x : String}
    (h : Decides rule s t (.var x)) : x ∈ s.vars ++ t.vars := by
  cases h with
  | same => exact List.mem_append_left _ (List.mem_singleton.mpr rfl)
  | left x c => exact List.mem_append_left _ (List.mem_singleton.mpr rfl)
  | right c x => exact List.mem_append_right _ (List.mem_singleton.mpr rfl)

/-!
# Answers
-/

structure Resolution where
  pair : Term × Term
  term : Term
  drawn : Nat

def answer (rule : AncestorRule) (reserved : List String) (pair : Term × Term) (p : PairTable) :
    Resolution :=
  let (u, q) := p.resolve rule reserved pair.1 pair.2
  ⟨pair, u, q.supply.count - p.supply.count⟩

def resolutions (rule : AncestorRule) (reserved : List String) :
    List (Term × Term) → PairTable → List Resolution
  | [], _ => []
  | pair :: pairs, p =>
      p.answer rule reserved pair ::
        resolutions rule reserved pairs (p.resolve rule reserved pair.1 pair.2).2

theorem count_resolve (rule : AncestorRule) (reserved : List String) (pair : Term × Term)
    (p : PairTable) :
    (p.resolve rule reserved pair.1 pair.2).2.supply.count =
      p.supply.count + (p.answer rule reserved pair).drawn := by
  have hle : p.supply.count ≤ (p.resolve rule reserved pair.1 pair.2).2.supply.count := by
    rcases resolve_cases rule reserved pair.1 pair.2 p with
      ⟨u, -, h⟩ | ⟨u, -, -, h⟩ | ⟨c, -, -, hc, -, h⟩
    · rw [h]
    · rw [h]
      exact Nat.le_refl _
    · rw [h]
      exact Nat.le_succ_of_le hc
  exact (Nat.add_sub_of_le hle).symm

theorem answer_of_lookup {p : PairTable} {pair : Term × Term} {u : Term}
    (h : p.chosen.lookup (pair.1, pair.2) = some u) (rule : AncestorRule)
    (reserved : List String) : p.answer rule reserved pair = ⟨pair, u, 0⟩ := by
  have hresolve : p.resolve rule reserved pair.1 pair.2 = (u, p) := by
    unfold resolve
    rw [h]
  rw [answer, hresolve, ← Nat.sub_self p.supply.count]

section Run

variable {rule : AncestorRule} {reserved : List String} {pairs : List (Term × Term)}
  {p : PairTable}

theorem count_resolveAll (rule : AncestorRule) (reserved : List String)
    (pairs : List (Term × Term)) (p : PairTable) :
    (resolveAll rule reserved pairs p).supply.count =
      p.supply.count + ((resolutions rule reserved pairs p).map Resolution.drawn).sum := by
  induction pairs generalizing p with
  | nil => rfl
  | cons pair pairs ih =>
      rw [resolveAll, ih, count_resolve, resolutions, List.map_cons, List.sum_cons, Nat.add_assoc]

theorem lookup_resolveAll_of_mem {c : Resolution}
    (hc : c ∈ resolutions rule reserved pairs p) :
    (resolveAll rule reserved pairs p).chosen.lookup (c.pair.1, c.pair.2) = some c.term := by
  induction pairs generalizing p with
  | nil => cases hc
  | cons pair pairs ih =>
      rcases List.mem_cons.mp hc with rfl | hc
      · exact grows_resolveAll rule reserved pairs _ _ _ _
          (lookup_resolve rule reserved pair.1 pair.2 p)
      · exact ih hc

theorem eq_of_lookup_of_mem {u : Term} {c : Resolution}
    (hc : c ∈ resolutions rule reserved pairs p)
    (h : p.chosen.lookup (c.pair.1, c.pair.2) = some u) : c.term = u ∧ c.drawn = 0 := by
  induction pairs generalizing p with
  | nil => cases hc
  | cons pair pairs ih =>
      rcases List.mem_cons.mp hc with rfl | hc
      · have hanswer : p.answer rule reserved pair = ⟨pair, u, 0⟩ :=
          answer_of_lookup h rule reserved
        exact ⟨congrArg Resolution.term hanswer, congrArg Resolution.drawn hanswer⟩
      · exact ih hc (grows_resolve rule reserved pair.1 pair.2 p _ _ _ h)

theorem pairwise_resolutions (rule : AncestorRule) (reserved : List String)
    (pairs : List (Term × Term)) (p : PairTable) :
    (resolutions rule reserved pairs p).Pairwise fun c d =>
      c.pair = d.pair → d.term = c.term ∧ d.drawn = 0 := by
  induction pairs generalizing p with
  | nil => exact List.Pairwise.nil
  | cons pair pairs ih =>
      refine List.Pairwise.cons ?_ (ih _)
      intro d hd hpair
      apply eq_of_lookup_of_mem hd
      rw [← hpair]
      exact lookup_resolve rule reserved pair.1 pair.2 p

end Run

/-!
# Rules that change

A rule is asked about a pair of constants only while the pair has no entry.  So two rules act alike
if they differ at pairs with entries alone, and a rule whose answers change from call to call acts
as the one that keeps its first answers.
-/

theorem resolve_congr {rule rule' : AncestorRule} {reserved : List String} {s t : Term}
    {p : PairTable} (h : p.chosen.lookup (s, t) = none → ∀ a b, s = .const a → t = .const b →
      rule a b = rule' a b) :
    p.resolve rule reserved s t = p.resolve rule' reserved s t := by
  unfold resolve
  cases hlookup : p.chosen.lookup (s, t) with
  | some u => rfl
  | none =>
      have hchoose : p.choose rule reserved s t = p.choose rule' reserved s t := by
        cases s with
        | const a =>
            cases t with
            | const b => simp only [choose, h hlookup a b rfl rfl]
            | _ => rfl
        | _ => cases t <;> rfl
      simp only [hchoose]

theorem resolutions_congr {rule rule' : AncestorRule} {reserved : List String}
    {pairs : List (Term × Term)} {p : PairTable}
    (h : ∀ a b, p.chosen.lookup (.const a, .const b) = none → rule a b = rule' a b) :
    resolutions rule reserved pairs p = resolutions rule' reserved pairs p := by
  induction pairs generalizing p with
  | nil => rfl
  | cons pair pairs ih =>
      have hresolve : p.resolve rule reserved pair.1 pair.2 =
          p.resolve rule' reserved pair.1 pair.2 := by
        apply resolve_congr
        intro hnone a b ha hb
        exact h a b (ha ▸ hb ▸ hnone)
      rw [resolutions, resolutions, answer, answer, hresolve]
      congr 1
      apply ih
      intro a b hnone
      apply h a b
      rw [Option.eq_none_iff_forall_ne_some] at hnone ⊢
      intro u hu
      exact hnone u (grows_resolve rule' reserved pair.1 pair.2 p _ _ _ hu)

def resolutionsByRules (reserved : List String) :
    List (AncestorRule × Term × Term) → PairTable → List Resolution
  | [], _ => []
  | (rule, pair) :: calls, p =>
      p.answer rule reserved pair ::
        resolutionsByRules reserved calls (p.resolve rule reserved pair.1 pair.2).2

theorem exists_rule_resolutionsByRules (reserved : List String)
    (calls : List (AncestorRule × Term × Term)) (p : PairTable) :
    ∃ rule, resolutionsByRules reserved calls p =
      resolutions rule reserved (calls.map Prod.snd) p := by
  induction calls generalizing p with
  | nil => exact ⟨fun _ _ => none, rfl⟩
  | cons call calls ih =>
      rcases call with ⟨rule, pair⟩
      rcases ih (p.resolve rule reserved pair.1 pair.2).2 with ⟨later, hlater⟩
      let fixed : AncestorRule := fun a b =>
        if pair = (.const a, .const b) then rule a b else later a b
      have hnow : p.resolve rule reserved pair.1 pair.2 =
          p.resolve fixed reserved pair.1 pair.2 := by
        apply resolve_congr
        intro hnone a b ha hb
        exact (if_pos (Prod.ext ha hb)).symm
      have hthen : resolutions later reserved (calls.map Prod.snd)
          (p.resolve rule reserved pair.1 pair.2).2 =
            resolutions fixed reserved (calls.map Prod.snd)
              (p.resolve rule reserved pair.1 pair.2).2 := by
        apply resolutions_congr
        intro a b hnone
        refine (if_neg fun hpair => ?_).symm
        have hentry := lookup_resolve rule reserved pair.1 pair.2 p
        rw [hpair] at hentry hnone
        rw [hnone] at hentry
        cases hentry
      refine ⟨fixed, ?_⟩
      rw [resolutionsByRules, hlater, hthen, List.map_cons, resolutions, answer, answer, hnow]

/-- A pair keeps the term that it got first.  The pairs that need a variable get variables that are
not reserved, different ones for different pairs, and these never stand for another pair whose
variables are reserved. -/
structure TiedAndApart (rule : AncestorRule) (reserved : List String) (run : List Resolution) :
    Prop where
  tied : run.Pairwise fun c d => c.pair = d.pair → d.term = c.term ∧ d.drawn = 0
  minted : ∀ c ∈ run, NeedsVar rule c.pair → ∃ x, c.term = .var x ∧ x ∉ reserved
  apart : ∀ c ∈ run, ∀ d ∈ run, NeedsVar rule c.pair → NeedsVar rule d.pair →
    c.pair ≠ d.pair → c.term ≠ d.term
  unmixed : ∀ c ∈ run, ∀ d ∈ run, NeedsVar rule c.pair → ¬ NeedsVar rule d.pair →
    d.pair.1.vars ++ d.pair.2.vars ⊆ reserved → d.term ≠ c.term

/-- A run that draws at most a period of values ties and separates its pairs. -/
theorem tiedAndApart_resolutions (rule : AncestorRule) (reserved : List String)
    (supply : NameSupply) (pairs : List (Term × Term))
    (hdrawn : ((resolutions rule reserved pairs (ofSupply supply)).map Resolution.drawn).sum ≤
      NameSupply.period) :
    TiedAndApart rule reserved (resolutions rule reserved pairs (ofSupply supply)) := by
  let last := resolveAll rule reserved pairs (ofSupply supply)
  have hseparates : last.Separates rule reserved supply :=
    (separates_ofSupply rule reserved supply).resolveAll pairs
  have hsettles : last.Settles rule := settles_resolveAll rule reserved pairs supply
  have hbound : last.supply.count ≤ supply.count + NameSupply.period := by
    have hcount := count_resolveAll rule reserved pairs (ofSupply supply)
    change last.supply.count = supply.count + _ at hcount
    omega
  have hminted : ∀ c ∈ resolutions rule reserved pairs (ofSupply supply),
      NeedsVar rule c.pair → ∃ x, c.term = .var x ∧ x ∉ reserved := by
    intro c hc hneeds
    rcases hseparates.minted hbound _ _ _ (lookup_resolveAll_of_mem hc)
      (settled?_eq_none_iff.mpr hneeds) with ⟨n, -, -, hterm, hreserved⟩
    exact ⟨_, hterm, hreserved⟩
  refine ⟨pairwise_resolutions rule reserved pairs _, hminted, ?_, ?_⟩
  · intro c hc d hd hneeds hneeds' hpair hterm
    have hlookup := lookup_resolveAll_of_mem hc
    rw [hterm] at hlookup
    exact hpair (hseparates.apart hbound _ _ _ _ _ hlookup (lookup_resolveAll_of_mem hd)
      (settled?_eq_none_iff.mpr hneeds) (settled?_eq_none_iff.mpr hneeds'))
  · intro c hc d hd hneeds hsettled hvars hterm
    rcases hminted c hc hneeds with ⟨x, hx, hreserved⟩
    rcases Option.ne_none_iff_exists'.mp (mt settled?_eq_none_iff.mp hsettled) with ⟨u, hu⟩
    have hdecided : d.term = u := hsettles _ _ _ _ (lookup_resolveAll_of_mem hd) hu
    rw [← hdecided, hterm, hx] at hu
    exact hreserved (hvars (settled?_eq_some_iff.mp hu).mem_vars)

def mammalRule : AncestorRule :=
  fun a b => if a = "dog" ∧ b = "cat" then some "mammal" else none

def mixedPairs : List (Term × Term) :=
  [(.const "a", .const "b"), (.const "b", .const "a"), (.const "dog", .const "cat"),
    (.var "Y", .const "c"), (.app ⟨"f", 1⟩ [.var "V1"], .var "Y"), (.const "a", .const "b")]

def mixedResolutions : List Resolution :=
  resolutions mammalRule ["V0", "Y"] mixedPairs (ofSupply ⟨"V", 18446744073709551615⟩)

/-- The counter goes round after the first pair and skips zero at the second. -/
theorem tiedAndApart_mixedResolutions :
    mixedResolutions.map Resolution.term = [.var "V18446744073709551615", .var "V1",
      .const "mammal", .var "Y", .var "V2", .var "V18446744073709551615"] ∧
    (mixedResolutions.map Resolution.drawn).sum ≤ NameSupply.period ∧
    TiedAndApart mammalRule ["V0", "Y"] mixedResolutions := by
  have hdrawn : (mixedResolutions.map Resolution.drawn).sum ≤ NameSupply.period := by decide
  exact ⟨by decide, hdrawn, tiedAndApart_resolutions mammalRule ["V0", "Y"]
    ⟨"V", 18446744073709551615⟩ mixedPairs hdrawn⟩

end PairTable
end ClauseInduction
