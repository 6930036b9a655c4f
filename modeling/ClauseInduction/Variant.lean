import ClauseInduction.Clause

/-!
# Variants

Two clauses are variants of each other when they differ by a one-to-one renaming of variables.
`Clause.IsVariant` says so; `Clause.isVariant` decides it by a backtracking search that pairs the
literals one-to-one and threads the pairs of variables fixed so far.

Mutual subsumption is not enough: a clause may subsume another and be subsumed by it with a
different number of literals, or with a renaming that identifies variables.

## Main definitions

- `Clause.IsVariant`, the relation
- `Renaming`, a partial one-to-one map of names, with `Renaming.extend?`
- `Clause.isVariant`, the search
-/

namespace ClauseInduction

/-- The clauses differ by a renaming that is one-to-one on the variables of the first. -/
def Clause.IsVariant (C D : Clause) : Prop :=
  ∃ ρ : String → String,
    (∀ x ∈ C.vars, ∀ y ∈ C.vars, ρ x = ρ y → x = y) ∧
    ∀ m : Literal, m ∈ D ↔ ∃ l ∈ C, l.subst (fun x => .var (ρ x)) = m

abbrev Renaming := List (String × String)

/-- Adds a pair of names, unless one of the two is paired with another name already. -/
def Renaming.extend? (x y : String) (r : Renaming) : Option Renaming :=
  match r.find? (fun p => p.1 = x || p.2 = y) with
  | some p => if p = (x, y) then some r else none
  | none => some ((x, y) :: r)

namespace Term

mutual

def rename? : Term → Term → Renaming → Option Renaming
  | var x, var y, r => r.extend? x y
  | const c, const d, r => if c = d then some r else none
  | app f ss, app g ts, r => if f = g then renameList? ss ts r else none
  | var _, const _, _ => none
  | var _, app _ _, _ => none
  | const _, var _, _ => none
  | const _, app _ _, _ => none
  | app _ _, var _, _ => none
  | app _ _, const _, _ => none

def renameList? : List Term → List Term → Renaming → Option Renaming
  | [], [], r => some r
  | s :: ss, t :: ts, r =>
      match rename? s t r with
      | some r' => renameList? ss ts r'
      | none => none
  | [], _ :: _, _ => none
  | _ :: _, [], _ => none

end

end Term

def Literal.rename? (l m : Literal) (r : Renaming) : Option Renaming :=
  if l.Comparable m then Term.renameList? l.args m.args r else none

namespace Clause

/-- The literals of the first list can be paired with distinct literals of the second so that
one renaming turns each into its partner. -/
def pairsUp : List Literal → List Literal → Renaming → Bool
  | [], _, _ => true
  | l :: ls, unused, r =>
      unused.any (fun m =>
        match l.rename? m r with
        | some r' => pairsUp ls (unused.erase m) r'
        | none => false)

def isVariant (C D : Clause) : Bool :=
  C.size == D.size && pairsUp C.literals D.literals []

end Clause

end ClauseInduction
