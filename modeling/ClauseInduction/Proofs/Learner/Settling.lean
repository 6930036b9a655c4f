import ClauseInduction.Proofs.Learner.Run

/-!
# Reduction under any coverage test

Nothing is asked of the test here: it may follow the sizes of the clauses, and what one pass takes
away may be what the next pass would have needed.  A pass that leaves the size as it was has found
every single test negative, and a pass that does not has made the clause smaller.  This alone ends
the passes and says what they leave.
-/

namespace ClauseInduction

namespace Clause

variable {covers : CoverageTest}

/-!
# A pass that takes nothing away
-/

theorem eq_of_sublist_of_subset {C R : Clause} (h : R.literals.Sublist C.literals)
    (hsubset : C ⊆ R) : R = C :=
  ext (h.eq_of_length_le (C.nodup.subperm hsubset).length_le)

/-- A positive test loses a literal that no later test brings back. -/
theorem covers_eq_false_of_size_pruneEach {C kept : Clause} {ls : List Literal}
    (hls : ∀ l ∈ ls, l ∈ kept) (hsize : (pruneEach covers C ls kept).size = kept.size) :
    ∀ l ∈ ls, covers C (kept.erase l) = false := by
  induction ls with
  | nil => exact fun l hl => nomatch hl
  | cons l ls ih =>
      rcases List.forall_mem_cons.mp hls with ⟨hl, hrest⟩
      rw [pruneEach] at hsize
      cases hcovers : covers C (kept.erase l) with
      | true =>
          rw [hcovers, if_pos rfl] at hsize
          have hle : (pruneEach covers C ls (kept.erase l)).size ≤ (kept.erase l).size :=
            (literals_pruneEach_sublist covers C ls (kept.erase l)).length_le
          have hpos : 0 < kept.size := List.length_pos_of_mem hl
          rw [size_erase_of_mem hl] at hle
          omega
      | false =>
          rw [hcovers, if_neg Bool.false_ne_true] at hsize
          exact List.forall_mem_cons.mpr ⟨hcovers, ih hrest hsize⟩

theorem covers_eq_false_of_size_prune {C : Clause} (hsize : (C.prune covers).size = C.size) :
    ∀ l ∈ C, covers C (C.erase l) = false :=
  covers_eq_false_of_size_pruneEach (fun _ hl => hl) hsize

/-!
# Passes until one takes nothing away
-/

/-- The clause `R` is what a number of passes leaves of `C`; the last one leaves the size as it was,
and all before it do not. -/
inductive Settles (covers : CoverageTest) : Nat → Clause → Clause → Prop where
  | stable {C : Clause} (hsize : (C.prune covers).size = C.size) :
      Settles covers 1 C (C.prune covers)
  | again {n : Nat} {C R : Clause} (hsize : (C.prune covers).size ≠ C.size)
      (hrest : Settles covers n (C.prune covers) R) : Settles covers (n + 1) C R

theorem exists_settles_settle (covers : CoverageTest) {fuel : Nat} {C : Clause}
    (hfuel : C.size < fuel) : ∃ n, Settles covers n C (settle covers fuel C) := by
  induction fuel generalizing C with
  | zero => exact absurd hfuel (Nat.not_lt_zero _)
  | succ fuel ih =>
      rw [settle]
      by_cases hsize : (C.prune covers).size = C.size
      · rw [if_pos hsize]
        exact ⟨1, .stable hsize⟩
      · rw [if_neg hsize]
        have hle := size_prune_le covers C
        rcases ih (by omega : (C.prune covers).size < fuel) with ⟨n, hn⟩
        exact ⟨n + 1, .again hsize hn⟩

theorem exists_settles_reduce (covers : CoverageTest) (C : Clause) :
    ∃ n, Settles covers n (C.prune covers) (C.reduce covers .fixedPoint) :=
  exists_settles_settle covers (Nat.lt_succ_of_le (size_prune_le covers C))

theorem Settles.le {n : Nat} {C R : Clause} (h : Settles covers n C R) : n ≤ C.size + 1 := by
  induction h with
  | stable hsize => omega
  | @again n C R hsize hrest ih =>
      have hle := size_prune_le covers C
      omega

theorem Settles.succ_le {n : Nat} {C R : Clause} (h : Settles covers n (C.prune covers) R) :
    n + 1 ≤ max C.size 1 + 1 := by
  by_cases hsize : (C.prune covers).size = C.size
  · rw [prune_eq_of_size_eq hsize] at h
    cases h with
    | stable => omega
    | again hagain hrest => exact absurd hsize hagain
  · have hle := size_prune_le covers C
    have hn := h.le
    omega

theorem Settles.sublist {n : Nat} {C R : Clause} (h : Settles covers n C R) :
    R.literals.Sublist C.literals := by
  induction h with
  | stable hsize => exact literals_prune_sublist covers _
  | again hsize hrest ih => exact ih.trans (literals_prune_sublist covers _)

theorem Settles.covers_eq_false {n : Nat} {C R : Clause} (h : Settles covers n C R) :
    ∀ l ∈ R, covers R (R.erase l) = false := by
  induction h with
  | stable hsize =>
      rw [prune_eq_of_size_eq hsize]
      exact covers_eq_false_of_size_prune hsize
  | again hsize hrest ih => exact ih

theorem literals_reduce_sublist (covers : CoverageTest) (strategy : ReductionStrategy)
    (C : Clause) : (C.reduce covers strategy).literals.Sublist C.literals := by
  cases strategy with
  | singlePass => exact literals_prune_sublist covers C
  | fixedPoint =>
      rcases exists_settles_reduce covers C with ⟨n, hn⟩
      exact hn.sublist.trans (literals_prune_sublist covers C)

end Clause

/-!
# What a learner keeps of a generalization
-/

namespace Learner

theorem simplify_true (L : Learner) (G : Clause) :
    ∃ reduced, L.simplify true G = (G.reduce L.covers L.config.strategy, reduced) ∧
      (reduced = true ↔ ∃ l ∈ G, ¬ l ∈ G.reduce L.covers L.config.strategy) := by
  have hsublist := Clause.literals_reduce_sublist L.covers L.config.strategy G
  unfold simplify
  generalize G.reduce L.covers L.config.strategy = R at hsublist ⊢
  rw [if_pos rfl]
  by_cases hsame : R.SameLiterals G
  · refine ⟨false, ?_, ?_⟩
    · rw [if_pos hsame, Clause.eq_of_sublist_of_subset hsublist hsame.right]
    · refine iff_of_false Bool.false_ne_true fun hlost => ?_
      rcases hlost with ⟨l, hl, hlR⟩
      exact hlR (hsame.right l hl)
  · refine ⟨true, if_neg hsame, iff_of_true rfl ?_⟩
    by_contra hnone
    apply hsame
    refine ⟨fun l hl => hsublist.subset hl, fun l hl => ?_⟩
    by_contra hlR
    exact hnone ⟨l, hl, hlR⟩

theorem see_reducing {L : Learner} {H S G : Clause} {supply : NameSupply}
    (hsome : L.hypothesis = some H) (hcovers : L.covers H S = false)
    (hgen : H.generalize (Taxonomy.rule L.taxonomy) S L.supply = (.ok G, supply)) :
    ∃ reduced,
      L.see S true true = (.ok (.generalized reduced),
        { L with supply, hypothesis := some (G.reduce L.covers L.config.strategy) }) ∧
      (reduced = true ↔ ∃ l ∈ G, ¬ l ∈ G.reduce L.covers L.config.strategy) := by
  rcases L.simplify_true G with ⟨reduced, hsimplify, hreduced⟩
  refine ⟨reduced, ?_, hreduced⟩
  rw [see_eq_of_seen (.generalized hsome hcovers hgen), hsimplify]

/-- Under any test the passes come to an end, and no literal that is left passes the test any more.
There is at most one pass more than there are literals, and two where there are none.  What is kept
is part of the clause, so that a learner can count what is gone and reports a reduction if and only
if something is. -/
theorem reduce_any_test (covers : CoverageTest) (C : Clause) :
    (∃ n, Clause.Settles covers n (C.prune covers) (C.reduce covers .fixedPoint) ∧
      n + 1 ≤ max C.size 1 + 1) ∧
    (C.reduce covers .fixedPoint).literals.Sublist C.literals ∧
    (∀ l ∈ C.reduce covers .fixedPoint,
      covers (C.reduce covers .fixedPoint) ((C.reduce covers .fixedPoint).erase l) = false) ∧
    (C.reduce covers .singlePass).literals.Sublist C.literals ∧
    ∀ (L : Learner) (H S G : Clause) (supply : NameSupply), L.covers = covers →
      L.hypothesis = some H → covers H S = false →
      H.generalize (Taxonomy.rule L.taxonomy) S L.supply = (.ok G, supply) →
      (G.reduce covers L.config.strategy).size ≤ G.size ∧
      ∃ reduced,
        L.see S true true = (.ok (.generalized reduced),
          { L with supply, hypothesis := some (G.reduce covers L.config.strategy) }) ∧
        (reduced = true ↔ ∃ l ∈ G, ¬ l ∈ G.reduce covers L.config.strategy) := by
  rcases Clause.exists_settles_reduce covers C with ⟨n, hn⟩
  refine ⟨⟨n, hn, hn.succ_le⟩, Clause.literals_reduce_sublist covers _ C, hn.covers_eq_false,
    Clause.literals_reduce_sublist covers _ C, ?_⟩
  intro L H S G supply hL hsome hcovers hgen
  subst hL
  exact ⟨(Clause.literals_reduce_sublist L.covers _ G).length_le,
    see_reducing hsome hcovers hgen⟩

/-- The empty clause is gone through twice, although there is no literal in it. -/
theorem not_settles_empty_in_size_passes :
    ¬ ∃ n, Clause.Settles Clause.subsumes n ((∅ : Clause).prune Clause.subsumes)
        ((∅ : Clause).reduce Clause.subsumes .fixedPoint) ∧ n + 1 ≤ (∅ : Clause).size + 1 := by
  intro h
  rcases h with ⟨n, hn, hbound⟩
  have hpass : (∅ : Clause).prune Clause.subsumes = ∅ := rfl
  rw [hpass] at hn
  cases hn with
  | stable hsize => exact absurd hbound (by decide)
  | again hsize hrest => exact hsize rfl

def dropOne : CoverageTest :=
  fun C D => C.size == D.size + 1

def threeOf (c : Term) : Clause :=
  Clause.ofList [⟨true, "p", [c]⟩, ⟨false, "q", [c]⟩, ⟨true, "r", [c, .const "a"]⟩]

def dropper : Learner :=
  { ofTest dropOne with
    config := { strategy := .fixedPoint }, hypothesis := some (threeOf (.const "b")) }

theorem see_dropper :
    (∃ M, dropper.see (threeOf (.const "c")) true true = (.ok (.generalized true), M) ∧
      M.hypothesis = some ∅) ∧
    ∃ n, Clause.Settles dropOne n ((threeOf (.var "V1")).prune dropOne) ∅ ∧ n + 1 ≤ 4 := by
  have hgen : (threeOf (.const "b")).generalize (Taxonomy.rule dropper.taxonomy)
      (threeOf (.const "c")) dropper.supply = (.ok (threeOf (.var "V1")), ⟨"V", 2⟩) := by
    decide
  have hnothing : (threeOf (.var "V1")).reduce dropOne .fixedPoint = ∅ := by decide
  rcases reduce_any_test dropOne (threeOf (.var "V1")) with ⟨⟨n, hn, hbound⟩, -, -, -, hsee⟩
  rcases hsee dropper (threeOf (.const "b")) (threeOf (.const "c")) (threeOf (.var "V1"))
    ⟨"V", 2⟩ rfl rfl (by decide) hgen with ⟨-, reduced, hcall, hreduced⟩
  constructor
  · have hlost : reduced = true := hreduced.mpr (by decide)
    subst hlost
    exact ⟨_, hcall, congrArg some hnothing⟩
  · rw [hnothing] at hn
    exact ⟨n, hn, hbound⟩

end Learner

end ClauseInduction
