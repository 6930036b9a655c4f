import ClauseInduction.Report
import ClauseInduction.Task.Reader

/-!
# The command line

`lgg-learn FILE [options]` learns from the task in a file and prints a report.  Everything but
the reading of the file is a function of the arguments and of the bytes of the file.

## Main definitions

- `CommandLine.Options`, with `Options.ofArgs`
- `CommandLine.learn`, from a task to a learner and the outcomes of the samples
- `CommandLine.respond`, from arguments and file to what is printed
-/

namespace ClauseInduction

namespace CommandLine

structure Options where
  config : LearnerConfig := {}
  usesTaxonomy : Bool := true
  asJson : Bool := false
deriving DecidableEq

namespace Options

/-- Adds what an option asks for.  An unknown option asks for nothing; so does `--verbose`,
since no log is kept. -/
def add (o : Options) (arg : String) : Options :=
  if arg = "--reduce" then { o with config := { o.config with reduces := true } }
  else if arg = "--fixed-point" then
    { o with config := { o.config with reduces := true, strategy := .fixedPoint } }
  else if arg = "--no-taxonomy" then { o with usesTaxonomy := false }
  else if arg = "--json" then { o with asJson := true }
  else o

def ofArgs (args : List String) : Options :=
  args.foldl add {}

def known : List String :=
  ["--reduce", "--fixed-point", "--no-taxonomy", "--json", "--verbose"]

end Options

structure Response where
  status : Nat
  output : String
  errors : String
deriving DecidableEq

def usage : String :=
  "Usage: lgg-learn <task.json> [options]\n\nOptions:\n" ++
  "  --reduce               Reduce the hypothesis after each generalization\n" ++
  "  --fixed-point          Repeat reduction passes until nothing is removed\n" ++
  "  --no-taxonomy          Ignore the isa facts of the task\n" ++
  "  --json                 Print the result as JSON\n" ++
  "  --verbose              Log every observation\n"

inductive Failure where
  | load (error : Task.LoadError)
  | taxonomy (error : TaxonomyError)
  | training (fault : Learner.TrainingFault)
deriving DecidableEq

def Failure.message (file : String) : Failure → String
  | load e => "Error reading '" ++ file ++ "': " ++ e.message
  | taxonomy e => "Taxonomy error: " ++ e.message
  | training f => "Sample " ++ toString f.position ++ ": " ++ f.clash.message

/-! ## Learning from a task -/

/-- The taxonomy of a task; there is none without facts, and none if the options forbid it. -/
def taxonomyOf (o : Options) (facts : List Literal) : Except TaxonomyError (Option Taxonomy) :=
  if o.usesTaxonomy = true ∧ facts ≠ [] then
    match Taxonomy.ofFacts facts with
    | .error e => .error e
    | .ok T => .ok (some T)
  else .ok none

def learnerOf (o : Options) (taxonomy : Option Taxonomy) : Learner :=
  ((Learner.new none).configure o.config).useTaxonomy taxonomy

/-- Shows samples to a learner one after another, up to the first fault.  The next sample has the
place `position`, and `outcomes` is what the samples before it have done. -/
def observeEach (position : Nat) (outcomes : List Outcome) (L : Learner) :
    List Sample → Except Learner.TrainingFault (Learner × List Outcome)
  | [] => .ok (L, outcomes)
  | s :: samples =>
      match L.observe s with
      | (.error clash, _) => .error ⟨position, clash⟩
      | (.ok outcome, M) => observeEach (position + 1) (outcomes ++ [outcome]) M samples

def learn (o : Options) (t : Task) : Except Failure (Learner × List Outcome) :=
  match taxonomyOf o t.facts with
  | .error e => .error (.taxonomy e)
  | .ok taxonomy =>
      match observeEach 0 [] (learnerOf o taxonomy) t.samples with
      | .error fault => .error (.training fault)
      | .ok result => .ok result

def run (o : Options) (contents : Option ByteArray) : Except Failure (Learner × List Outcome) :=
  match Task.load contents with
  | .error e => .error (.load e)
  | .ok t => learn o t

/-! ## Printing -/

def complaints (args : List String) : String :=
  String.join ((args.filter fun arg => !Options.known.contains arg).map fun arg =>
    "Unknown option: " ++ arg ++ "\n")

def summary (samples ignored changes : Nat) (hypothesis : Option Clause) : String :=
  "Processed " ++ toString samples ++ " samples (" ++ toString ignored ++ " negative ignored, " ++
    toString changes ++ " hypothesis changes)\n" ++
    match hypothesis with
    | some H => "Hypothesis: " ++ H.text ++ "\n"
    | none => "No hypothesis: no positive sample seen\n"

def render (o : Options) (hypothesis : Option Clause) (outcomes : List Outcome) : String :=
  if o.asJson then (Report.mk hypothesis outcomes).toJson.pretty ++ "\n"
  else
    let changes := (outcomes.filter Outcome.changes).length
    let ignored := (outcomes.filter fun outcome => outcome = .ignoredNegative).length
    summary outcomes.length ignored changes hypothesis

def respond (args : List String) (read : String → Option ByteArray) : Response :=
  match args with
  | [] => ⟨1, "", usage⟩
  | file :: args =>
      let o := Options.ofArgs args
      match run o (read file) with
      | .error failure => ⟨1, "", complaints args ++ failure.message file ++ "\n"⟩
      | .ok (L, outcomes) => ⟨0, render o L.hypothesis outcomes, complaints args⟩

end CommandLine

end ClauseInduction
