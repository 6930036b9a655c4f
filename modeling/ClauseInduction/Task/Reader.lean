import ClauseInduction.Task.Basic
import ClauseInduction.Task.TermReader

/-!
# Reading tasks

The documents of literals, clauses, examples and tasks are records.  Arguments of an atom,
literals of a clause and the taxonomy of a task may be missing; all other fields are needed.

## Main definitions

- `Literal.reader`, `Example.reader`, `Task.reader`
- `Task.parse`, from a text, and `Task.load`, from the bytes of a file
-/

namespace ClauseInduction

open Json (Reader Rejection)

/-! ## Records -/

def Literal.atomReader : Reader (String × List Term) :=
  .record [.first "predicate" .string, .second "args" (.list Term.reader)] (none, none)
    fun (predicate, args) => predicate.map fun p => (p, args.getD [])

def Literal.reader : Reader Literal :=
  .record [.first "polarity" .bool, .second "atom" Literal.atomReader] (none, none)
    fun (polarity, atom) =>
      polarity.bind fun positive => atom.map fun (predicate, args) => ⟨positive, predicate, args⟩

def literalsReader : Reader (List Literal) :=
  .record [.only "literals" (.list Literal.reader)] none
    fun literals => some (literals.getD [])

def Example.reader : Reader Example :=
  .record [.first "positive" .bool, .second "clause" literalsReader] (none, none)
    fun (positive, literals) => positive.bind fun p => literals.map fun ls => ⟨p, ls⟩

namespace Task

def reader : Reader Task :=
  .record [.first "taxonomy" (.list Literal.reader), .second "samples" (.list Example.reader)]
    (none, none) fun (facts, examples) => examples.map fun es => ⟨facts.getD [], es⟩

def parse (s : String) : Except Rejection Task :=
  reader.run s

/-! ## Files -/

inductive LoadError where
  | unreadable
  | document (rejection : Rejection)
deriving DecidableEq

def LoadError.message : LoadError → String
  | unreadable => "IO error: the file cannot be read as text"
  | document rejection => "JSON error: " ++ rejection.message

def load (contents : Option ByteArray) : Except LoadError Task :=
  match contents.bind String.fromUTF8? with
  | none => .error .unreadable
  | some s =>
      match parse s with
      | .error r => .error (.document r)
      | .ok t => .ok t

end Task

end ClauseInduction
