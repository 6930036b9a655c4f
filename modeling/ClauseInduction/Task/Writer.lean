import ClauseInduction.Json.Basic
import ClauseInduction.Task.Basic

/-!
# Writing tasks

The JSON values of terms, literals, clauses and tasks.  An atom without arguments is written
without the member for them; a function always has it.
-/

namespace ClauseInduction

namespace Term

mutual

def toJson : Term → Json
  | var x => .object [("type", .string "Variable"), ("name", .string x)]
  | const c => .object [("type", .string "Constant"), ("name", .string c)]
  | app f args =>
      .object [("type", .string "Function"), ("name", .string f.name),
        ("args", .array (toJsonList args))]

def toJsonList : List Term → List Json
  | [] => []
  | t :: ts => toJson t :: toJsonList ts

end

end Term

def Literal.atomToJson (l : Literal) : Json :=
  .object (("predicate", .string l.predicate) ::
    if l.args = [] then [] else [("args", .array (Term.toJsonList l.args))])

def Literal.toJson (l : Literal) : Json :=
  .object [("polarity", .bool l.positive), ("atom", l.atomToJson)]

def literalsToJson (ls : List Literal) : Json :=
  .object [("literals", .array (ls.map Literal.toJson))]

def Clause.toJson (C : Clause) : Json :=
  literalsToJson C.literals

def Example.toJson (e : Example) : Json :=
  .object [("positive", .bool e.positive), ("clause", literalsToJson e.literals)]

def Task.toJson (t : Task) : Json :=
  .object [("taxonomy", .array (t.facts.map Literal.toJson)),
    ("samples", .array (t.examples.map Example.toJson))]

def Task.write (t : Task) : String :=
  t.toJson.compact

end ClauseInduction
