import ClauseInduction.Subsumption
import ClauseInduction.Proofs.Substitution

/-!
# The subsumption search decides subsumption

A list of bindings is read as a constraint on substitutions.  Matching narrows the constraint by
exactly one equation, so a search that threads bindings keeps track of all substitutions that are
still possible, and it can fail only when there is none.
-/

namespace ClauseInduction

namespace Bindings

def Fits (b : Bindings) (σ : String → Term) : Prop :=
  ∀ x t, b.lookup x = some t → σ x = t

theorem fits_nil (σ : String → Term) : Fits [] σ := by
  intro x t h
  cases h

theorem fits_toSubst (b : Bindings) : b.Fits b.toSubst := by
  intro x t h
  rw [toSubst, h]
  rfl

theorem fits_cons {b : Bindings} {x : String} {t : Term} {σ : String → Term}
    (h : b.lookup x = none) : Fits ((x, t) :: b) σ ↔ b.Fits σ ∧ σ x = t := by
  constructor
  · intro hfit
    constructor
    · intro y u hy
      apply hfit
      have hyx : y ≠ x := by
        intro heq
        cases heq
        rw [h] at hy
        cases hy
      rw [List.lookup_cons, beq_false_of_ne hyx]
      exact hy
    · exact hfit x t List.lookup_cons_self
  · intro hboth y u hy
    rcases hboth with ⟨hfit, hx⟩
    rw [List.lookup_cons] at hy
    by_cases hyx : y = x
    · subst hyx
      simp only [beq_self_eq_true, Option.some.injEq] at hy
      rw [hx, hy]
    · rw [beq_false_of_ne hyx] at hy
      exact hfit y u hy

end Bindings

/-!
# Matching

The substitutions that fit the outcome of a match are those that fit the bindings before it and
solve the equation; a match that fails has no solution.
-/

namespace Term

theorem matchList?_solutions {ss : List Term} {σ : String → Term}
    (ih : ∀ s ∈ ss, ∀ (t : Term) (b : Bindings),
      (∃ b' ∈ match? s t b, b'.Fits σ) ↔ b.Fits σ ∧ s.subst σ = t)
    (ts : List Term) (b : Bindings) :
    (∃ b' ∈ matchList? ss ts b, b'.Fits σ) ↔ b.Fits σ ∧ ss.map (subst σ) = ts := by
  induction ss generalizing ts b with
  | nil =>
      cases ts with
      | nil => simp [matchList?]
      | cons t ts => simp [matchList?]
  | cons s ss ihss =>
      cases ts with
      | nil => simp [matchList?]
      | cons t ts =>
          have hs := ih s (by simp) t b
          have htail := ihss (fun u hu => ih u (by simp [hu])) ts
          simp only [matchList?, List.map_cons, List.cons.injEq]
          rw [← and_assoc, ← hs]
          cases hmatch : match? s t b with
          | none => simp
          | some b' =>
              simp only [Option.mem_def, Option.some.injEq, exists_eq_left']
              exact htail b'

theorem match?_solutions (s t : Term) (b : Bindings) (σ : String → Term) :
    (∃ b' ∈ match? s t b, b'.Fits σ) ↔ b.Fits σ ∧ s.subst σ = t := by
  induction s generalizing t b with
  | var x =>
      simp only [match?, subst]
      cases hx : b.lookup x with
      | none => simp [Bindings.fits_cons hx]
      | some u =>
          -- a variable that is bound already is not bound again: its term has to be `t`
          by_cases hut : u = t
          · simp only [hut, if_true, Option.mem_def, Option.some.injEq, exists_eq_left',
              iff_self_and]
            intro hfit
            exact hfit x t (hut ▸ hx)
          · simp only [hut, if_false, Option.mem_def, reduceCtorEq, false_and, exists_false,
              false_iff, not_and]
            intro hfit hxt
            exact hut ((hfit x u hx).symm.trans hxt)
  | const c =>
      simp only [match?, subst]
      by_cases ht : t = const c
      · simp [ht]
      · simp [ht, Ne.symm ht]
  | app f ss ih =>
      cases t with
      | var y => simp [match?, subst]
      | const d => simp [match?, subst]
      | app g ts =>
          simp only [match?, subst_app, app.injEq]
          by_cases hfg : f = g
          · simpa [hfg] using matchList?_solutions ih ts b
          · simp [hfg]

end Term

theorem Literal.match?_solutions (l m : Literal) (b : Bindings) (σ : String → Term) :
    (∃ b' ∈ l.match? m b, b'.Fits σ) ↔ b.Fits σ ∧ l.subst σ = m := by
  rw [Literal.subst_eq_iff, Literal.match?]
  by_cases hlm : l.Comparable m
  · simpa [hlm] using
      Term.matchList?_solutions (fun s _ t b => Term.match?_solutions s t b σ) m.args b
  · simp [hlm]

/-!
# The search

Ranking only reorders the goals, and a goal's candidates are all the literals that an instance of
it can equal.
-/

namespace Clause

theorem mem_insertByCount {x y : Literal × List Literal} {goals : List (Literal × List Literal)} :
    y ∈ insertByCount x goals ↔ y = x ∨ y ∈ goals := by
  induction goals with
  | nil => simp [insertByCount]
  | cons z goals ih =>
      simp only [insertByCount]
      split
      · simp
      · simp only [List.mem_cons, ih]
        exact or_left_comm

theorem mem_ranked {C D : Clause} {goal : Literal × List Literal} :
    goal ∈ ranked C D ↔ ∃ l ∈ C, goal = (l, D.candidates l) := by
  have hfold : ∀ goals : List (Literal × List Literal),
      goal ∈ goals.foldr insertByCount [] ↔ goal ∈ goals := by
    intro goals
    induction goals with
    | nil => simp
    | cons x goals ih => rw [List.foldr_cons, mem_insertByCount, ih, List.mem_cons]
  rw [ranked, hfold, List.mem_map]
  simp only [mem_def, eq_comm]

theorem subst_mem_candidates {D : Clause} {l : Literal} {σ : String → Term} :
    l.subst σ ∈ D.candidates l ↔ l.subst σ ∈ D := by
  simp [candidates, mem_def, Literal.compatible_subst]

theorem embeds_iff {goals : List (Literal × List Literal)} {b : Bindings} :
    embeds goals b = true ↔ ∃ σ, b.Fits σ ∧ ∀ goal ∈ goals, goal.1.subst σ ∈ goal.2 := by
  induction goals generalizing b with
  | nil =>
      simp only [embeds, List.not_mem_nil, false_implies, implies_true, and_true, true_iff]
      exact ⟨b.toSubst, b.fits_toSubst⟩
  | cons goal goals ih =>
      rcases goal with ⟨l, candidates⟩
      rw [embeds, List.any_eq_true]
      constructor
      · intro hany
        rcases hany with ⟨m, hm, hrest⟩
        cases hmatch : l.match? m b with
        | none => simp [hmatch] at hrest
        | some b' =>
            rw [hmatch] at hrest
            rcases ih.mp hrest with ⟨σ, hfit, hgoals⟩
            have hlm : b.Fits σ ∧ l.subst σ = m :=
              (Literal.match?_solutions l m b σ).mp ⟨b', hmatch, hfit⟩
            refine ⟨σ, hlm.left, ?_⟩
            intro goal' hgoal'
            rcases List.mem_cons.mp hgoal' with rfl | htail
            · exact hlm.right ▸ hm
            · exact hgoals goal' htail
      · intro hsolution
        rcases hsolution with ⟨σ, hfit, hgoals⟩
        have hm : l.subst σ ∈ candidates := hgoals (l, candidates) (by simp)
        rcases (Literal.match?_solutions l _ b σ).mpr ⟨hfit, rfl⟩ with ⟨b', hmatch, hfit'⟩
        refine ⟨l.subst σ, hm, ?_⟩
        rw [Option.mem_def.mp hmatch]
        exact ih.mpr ⟨σ, hfit', fun goal' htail => hgoals goal' (by simp [htail])⟩

/-- The goals are the literals of `C`, in any order and with any repetition, each with literals of
`D` that may be tried; no candidate is left out. -/
structure GoalsFor (C D : Clause) (goals : List (Literal × List Literal)) : Prop where
  mem_iff : ∀ l, l ∈ C ↔ l ∈ goals.map Prod.fst
  candidates_subset : ∀ goal ∈ goals, D.candidates goal.1 ⊆ goal.2
  mem_of_mem : ∀ goal ∈ goals, ∀ m ∈ goal.2, m ∈ D

theorem goalsFor_ranked (C D : Clause) : GoalsFor C D (ranked C D) where
  mem_iff l := by simp [List.mem_map, mem_ranked]
  candidates_subset goal hgoal := by
    rcases mem_ranked.mp hgoal with ⟨l, -, rfl⟩
    exact List.Subset.refl _
  mem_of_mem goal hgoal m hm := by
    rcases mem_ranked.mp hgoal with ⟨l, -, rfl⟩
    exact (List.mem_filter.mp hm).left

theorem goalsFor_map {C D : Clause} {ls ms : List Literal} (hls : ∀ l, l ∈ ls ↔ l ∈ C)
    (hms : ∀ m, m ∈ ms ↔ m ∈ D) : GoalsFor C D (ls.map fun l => (l, ms)) where
  mem_iff l := by simp [hls]
  candidates_subset goal hgoal := by
    rcases List.mem_map.mp hgoal with ⟨l, -, rfl⟩
    exact fun m hm => (hms m).mpr ((List.mem_filter.mp hm).left)
  mem_of_mem goal hgoal m hm := by
    rcases List.mem_map.mp hgoal with ⟨l, -, rfl⟩
    exact (hms m).mp hm

theorem GoalsFor.embeds_iff {C D : Clause} {goals : List (Literal × List Literal)}
    (h : GoalsFor C D goals) : embeds goals [] = true ↔ C.Subsumes D := by
  rw [Clause.embeds_iff]
  constructor
  · intro hsolution
    rcases hsolution with ⟨σ, -, hgoals⟩
    refine ⟨σ, fun l hl => ?_⟩
    rcases List.mem_map.mp ((h.mem_iff l).mp hl) with ⟨goal, hgoal, rfl⟩
    exact h.mem_of_mem goal hgoal _ (hgoals goal hgoal)
  · intro hsubsumes
    rcases hsubsumes with ⟨σ, hσ⟩
    refine ⟨σ, Bindings.fits_nil σ, fun goal hgoal => ?_⟩
    have hgoal' : goal.1 ∈ C := (h.mem_iff goal.1).mpr (List.mem_map_of_mem hgoal)
    exact h.candidates_subset goal hgoal (subst_mem_candidates.mpr (hσ goal.1 hgoal'))

theorem Subsumes.candidates_ne_nil {C D : Clause} (h : C.Subsumes D) {l : Literal} (hl : l ∈ C) :
    D.candidates l ≠ [] := by
  rcases h with ⟨σ, hσ⟩
  exact List.ne_nil_of_mem (subst_mem_candidates.mpr (hσ l hl))

theorem subsumes_iff {C D : Clause} : C.subsumes D = true ↔ C.Subsumes D := by
  simp only [subsumes, Bool.and_eq_true, (goalsFor_ranked C D).embeds_iff, and_iff_right_iff_imp]
  intro hsubsumes
  rw [Bool.not_eq_true', List.any_eq_false]
  intro goal hgoal
  rcases mem_ranked.mp hgoal with ⟨l, hl, rfl⟩
  simpa using hsubsumes.candidates_ne_nil hl

theorem subsumes_eq_false_iff {C D : Clause} : C.subsumes D = false ↔ ¬ C.Subsumes D := by
  rw [← subsumes_iff, Bool.not_eq_true]

def Equivalent (C D : Clause) : Prop :=
  C.subsumes D = true ∧ D.subsumes C = true

instance (C D : Clause) : Decidable (Equivalent C D) :=
  inferInstanceAs (Decidable (_ ∧ _))

theorem equivalent_iff {C D : Clause} : C.Equivalent D ↔ C.Subsumes D ∧ D.Subsumes C := by
  rw [Equivalent, subsumes_iff, subsumes_iff]

/-!
# What does not matter to the search
-/

/-- The search answers whether some substitution sends every literal of the first clause to one of
the second.  A search that takes the goals in another order, does not look for goals without
candidates beforehand or tries more literals of the second clause gives the same answer, and so do
clauses that list the same literals in other orders. -/
theorem subsumes_iff_exists_subst (C D : Clause) :
    (C.subsumes D = true ↔ ∃ σ : String → Term, ∀ l ∈ C, l.subst σ ∈ D) ∧
    (∀ goals, GoalsFor C D goals → embeds goals [] = C.subsumes D) ∧
    ∀ C' D' : Clause, C'.SameLiterals C → D'.SameLiterals D →
      C'.subsumes D' = C.subsumes D := by
  refine ⟨subsumes_iff, ?_, ?_⟩
  · intro goals hgoals
    rw [Bool.eq_iff_iff, hgoals.embeds_iff, subsumes_iff]
  · intro C' D' hC hD
    rw [Bool.eq_iff_iff, subsumes_iff, subsumes_iff]
    constructor
    · intro h
      exact (Subsumes.of_subset hC.right).trans (h.trans (Subsumes.of_subset hD.left))
    · intro h
      exact (Subsumes.of_subset hC.left).trans (h.trans (Subsumes.of_subset hD.right))

/-- Both clauses use `X`, the first image of the first literal has to be given up, and two literals
share an image. -/
def chainPattern : Clause :=
  .ofList [⟨true, "p", [.var "X", .var "Y"]⟩, ⟨true, "q", [.app ⟨"f", 3⟩ [.var "Y"]]⟩,
    ⟨true, "p", [.const "a", .var "Z"]⟩]

def chainInstance : Clause :=
  .ofList [⟨true, "p", [.const "a", .const "a"]⟩, ⟨true, "p", [.const "a", .var "X"]⟩,
    ⟨true, "q", [.app ⟨"f", 3⟩ [.var "X"]]⟩, ⟨true, "q", [.app ⟨"f", 1⟩ [.const "a"]]⟩]

theorem embeds_chainPattern :
    chainPattern.subsumes chainInstance = true ∧
    embeds (chainPattern.literals.map fun l => (l, chainInstance.literals.reverse)) [] = true := by
  have hsubsumes : chainPattern.subsumes chainInstance = true := by decide
  refine ⟨hsubsumes, ?_⟩
  rw [(subsumes_iff_exists_subst chainPattern chainInstance).right.left _
    (goalsFor_map (fun l => Iff.rfl) fun m => List.mem_reverse), hsubsumes]

end Clause

end ClauseInduction
