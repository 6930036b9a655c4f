import ClauseInduction.Clause
import ClauseInduction.NameSupply
import ClauseInduction.Taxonomy.Ancestor

/-!
# Least general generalization

The generalization of two clauses collects, for every pair of comparable literals, one literal
whose arguments generalize the arguments of both.  Where two terms differ they are replaced by
one term that depends on the pair alone: a table keeps the term chosen for each pair, which ties
the same variable to the same pair across all literals.

## Main definitions

- `PairTable`, the terms chosen so far and the supply of names for new ones
- `PairTable.resolve`, the term that stands for two terms without common shape
- `Term.generalize`, `Clause.generalize`
-/

namespace ClauseInduction

/-! ## Pairs of terms -/

structure PairTable where
  chosen : List ((Term × Term) × Term)
  supply : NameSupply

namespace PairTable

def ofSupply (supply : NameSupply) : PairTable :=
  ⟨[], supply⟩

def mint (reserved : List String) (p : PairTable) : Term × PairTable :=
  let (x, supply) := p.supply.fresh reserved
  (.var x, { p with supply := supply })

/-- Chooses the term for a pair that has no entry.  A term paired with itself stands for itself
and a variable paired with a constant absorbs it; two constants become their common ancestor if
there is one; all other pairs become a new variable. -/
def choose (rule : AncestorRule) (reserved : List String) (s t : Term) (p : PairTable) :
    Term × PairTable :=
  if s = t then (s, p)
  else
    match s, t with
    | .const a, .const b =>
        match rule a b with
        | some c => (.const c, p)
        | none => p.mint reserved
    | .var x, .const _ => (.var x, p)
    | .const _, .var y => (.var y, p)
    | _, _ => p.mint reserved

def record (s t u : Term) (p : PairTable) : PairTable :=
  { p with chosen := ((s, t), u) :: p.chosen }

def resolve (rule : AncestorRule) (reserved : List String) (s t : Term) (p : PairTable) :
    Term × PairTable :=
  match p.chosen.lookup (s, t) with
  | some u => (u, p)
  | none =>
      let (u, q) := p.choose rule reserved s t
      (u, q.record s t u)

end PairTable

/-! ## Terms -/

namespace Term

mutual

/-- Generalizes two terms: arguments of applications of the same shape are generalized one by
one, all other pairs are resolved as a whole. -/
def generalize (rule : AncestorRule) (reserved : List String) :
    Term → Term → PairTable → Term × PairTable
  | app f ss, app g ts, p =>
      if SameShape (app f ss) (app g ts) then
        let (us, q) := generalizeList rule reserved ss ts p
        (app f us, q)
      else p.resolve rule reserved (app f ss) (app g ts)
  | s, t, p => p.resolve rule reserved s t

def generalizeList (rule : AncestorRule) (reserved : List String) :
    List Term → List Term → PairTable → List Term × PairTable
  | s :: ss, t :: ts, p =>
      let (u, q) := generalize rule reserved s t p
      let (us, r) := generalizeList rule reserved ss ts q
      (u :: us, r)
  | _, _, p => ([], p)

end

end Term

/-! ## Clauses -/

structure ArityClash where
  predicate : String
  left : Nat
  right : Nat
deriving DecidableEq

def ArityClash.message (e : ArityClash) : String :=
  "Clause integrity error: predicate '" ++ e.predicate ++ "' used with arity " ++
    toString e.left ++ " and " ++ toString e.right

namespace Clause

/-- The pairs of comparable literals of two clauses, in the order of the first clause and for
each of its literals in the order of the second. -/
def comparablePairs (A B : Clause) : List (Literal × Literal) :=
  A.literals.flatMap fun l => (B.literals.filter fun m => l.Comparable m).map fun m => (l, m)

def generalizePairs (rule : AncestorRule) (reserved : List String) :
    List (Literal × Literal) → Clause → PairTable → Except ArityClash Clause × PairTable
  | [], G, p => (.ok G, p)
  | (l, m) :: pairs, G, p =>
      if l.arity = m.arity then
        let (args, q) := Term.generalizeList rule reserved l.args m.args p
        generalizePairs rule reserved pairs (G.insert ⟨l.positive, l.predicate, args⟩) q
      else (.error ⟨l.predicate, l.arity, m.arity⟩, p)

/-- Generalizes two clauses.  New variables differ from all variables of both; the supply goes
on from the last name issued, also after a fault. -/
def generalize (rule : AncestorRule) (A B : Clause) (supply : NameSupply) :
    Except ArityClash Clause × NameSupply :=
  let (result, p) :=
    generalizePairs rule (A.vars ++ B.vars) (comparablePairs A B) ∅ (.ofSupply supply)
  (result, p.supply)

end Clause

end ClauseInduction
