import ClauseInduction.Task.Writer

/-!
# Reports

What a run of learning has come to: the final hypothesis, how many samples there were, and how
many of them changed the hypothesis.
-/

namespace ClauseInduction

structure Report where
  hypothesis : Option Clause
  outcomes : List Outcome
deriving DecidableEq

namespace Report

def sampleCount (r : Report) : Nat :=
  r.outcomes.length

def changeCount (r : Report) : Nat :=
  r.outcomes.countP Outcome.changes

/-- The JSON value of a report.  Without a hypothesis there is no written form of it. -/
def toJson (r : Report) : Json :=
  .object ((match r.hypothesis with
    | some H => [("hypothesis", H.toJson), ("text", .string H.text)]
    | none => [("hypothesis", .null)]) ++
    [("samples", .ofNat r.sampleCount), ("changes", .ofNat r.changeCount)])

end Report

end ClauseInduction
