/-!
# Faults of a text

A text can fail to be a document of the expected form in three ways: it breaks the grammar of
JSON, it ends too early, or it is JSON of another form.  The first fault from the left decides.
-/

namespace ClauseInduction

namespace Json

inductive Rejection where
  | malformed
  | incomplete
  | unfit
deriving DecidableEq

def Rejection.message : Rejection → String
  | malformed => "the text is not JSON"
  | incomplete => "the text ends too early"
  | unfit => "the value is not of the expected form"

/-- A place where a text cannot be continued.  A value that is looked at and a value that is
passed over are scanned by different rules, so there is a rejection for each. -/
structure Fault where
  read : Rejection
  skipped : Rejection
deriving DecidableEq

namespace Fault

def malformed : Fault :=
  ⟨.malformed, .malformed⟩

def incomplete : Fault :=
  ⟨.incomplete, .incomplete⟩

end Fault

end Json

end ClauseInduction
