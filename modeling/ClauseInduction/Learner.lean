import ClauseInduction.Generalization
import ClauseInduction.Reduction
import ClauseInduction.Subsumption

/-!
# Incremental learning

A learner keeps one clause, its hypothesis.  It adopts the first positive sample as it stands
and generalizes the hypothesis with every later positive sample that it does not cover yet; it
may reduce the result.  Negative samples never change anything: the samples are taken to be free
of noise, so a least general clause that covers the positive ones stays clear of the others.

## Main definitions

- `Sample`, `Outcome`, `LearnerConfig`, `Learner`
- `Learner.predicts`, the label that the hypothesis gives to a clause
- `Learner.see`, `Learner.observe`, `Learner.train`: learning from one sample or from many
-/

namespace ClauseInduction

structure Sample where
  clause : Clause
  positive : Bool
deriving DecidableEq

inductive Outcome where
  | ignoredNegative
  | adopted
  | covered
  | generalized (reduced : Bool)
deriving DecidableEq

def Outcome.changes : Outcome → Bool
  | ignoredNegative => false
  | adopted => true
  | covered => false
  | generalized _ => true

structure LearnerConfig where
  reduces : Bool := false
  strategy : ReductionStrategy := .singlePass
  stem : String := NameSupply.defaultStem
deriving DecidableEq

instance : Inhabited LearnerConfig := ⟨{}⟩

structure Learner where
  covers : CoverageTest
  taxonomy : Option Taxonomy
  config : LearnerConfig
  supply : NameSupply
  hypothesis : Option Clause

namespace Learner

/-! ## Setting up -/

def ofTest (covers : CoverageTest) : Learner :=
  { covers, taxonomy := none, config := default, supply := default, hypothesis := none }

/-- A learner without hypothesis that tests coverage by theta-subsumption. -/
def new (taxonomy : Option Taxonomy) : Learner :=
  { ofTest Clause.subsumes with taxonomy }

instance : Inhabited Learner := ⟨new none⟩

def ofFacts (facts : List Literal) : Except TaxonomyError Learner :=
  match Taxonomy.ofFacts facts with
  | .error e => .error e
  | .ok T => .ok (new (some T))

/-- Changes the configuration; the supply of variables starts again. -/
def configure (config : LearnerConfig) (L : Learner) : Learner :=
  { L with config, supply := .ofStem config.stem }

def useTaxonomy (taxonomy : Option Taxonomy) (L : Learner) : Learner :=
  { L with taxonomy }

/-! ## Predicting and learning -/

def predicts (L : Learner) (C : Clause) : Bool :=
  L.hypothesis.any fun H => L.covers H C

/-- The new hypothesis in the place of a generalization, and whether reduction made it smaller. -/
def simplify (L : Learner) (reduce : Bool) (G : Clause) : Clause × Bool :=
  if reduce then
    let R := G.reduce L.covers L.config.strategy
    if R.SameLiterals G then (G, false) else (R, true)
  else (G, false)

/-- Learns from a clause with its label.  On a fault the hypothesis stays as it is. -/
def see (L : Learner) (C : Clause) (positive reduce : Bool) :
    Except ArityClash Outcome × Learner :=
  if positive then
    match L.hypothesis with
    | none => (.ok .adopted, { L with hypothesis := some C })
    | some H =>
        if L.covers H C then (.ok .covered, L)
        else
          match H.generalize (Taxonomy.rule L.taxonomy) C L.supply with
          | (.error e, supply) => (.error e, { L with supply })
          | (.ok G, supply) =>
              let (R, reduced) := L.simplify reduce G
              (.ok (.generalized reduced), { L with supply, hypothesis := some R })
  else (.ok .ignoredNegative, L)

def observe (L : Learner) (s : Sample) : Except ArityClash Outcome × Learner :=
  L.see s.clause s.positive L.config.reduces

/-- A sample that cannot be learned from: its place, counted from zero, and the fault. -/
structure TrainingFault where
  position : Nat
  clash : ArityClash
deriving DecidableEq

def train : List Sample → Learner → Except TrainingFault (List Outcome) × Learner
  | [], L => (.ok [], L)
  | s :: samples, L =>
      match L.observe s with
      | (.error clash, L') => (.error ⟨0, clash⟩, L')
      | (.ok outcome, L') =>
          match train samples L' with
          | (.error fault, M) => (.error { fault with position := fault.position + 1 }, M)
          | (.ok outcomes, M) => (.ok (outcome :: outcomes), M)

end Learner

end ClauseInduction
