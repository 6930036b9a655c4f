import ClauseInduction.Learner

/-!
# Learning tasks

A task holds the facts of a taxonomy and labelled examples, in order and with every repetition
that the document has; an example becomes a sample when its literals are collected into a clause.
-/

namespace ClauseInduction

structure Example where
  positive : Bool
  literals : List Literal
deriving DecidableEq

def Example.toSample (e : Example) : Sample :=
  ⟨.ofList e.literals, e.positive⟩

structure Task where
  facts : List Literal
  examples : List Example
deriving DecidableEq

namespace Task

def samples (t : Task) : List Sample :=
  t.examples.map Example.toSample

def Saturated (t : Task) : Prop :=
  (∀ l ∈ t.facts, l.Saturated) ∧ ∀ e ∈ t.examples, ∀ l ∈ e.literals, l.Saturated

end Task

end ClauseInduction
