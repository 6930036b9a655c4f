import ClauseInduction.Clause

/-!
# Reduction

A literal of a clause is redundant when the clause subsumes what is left without it; then both
say the same.  A pass goes through the literals in order and takes each one away that is
redundant at that moment.  What counts as subsumption is left to a coverage test.

## Main definitions

- `CoverageTest`, with `Clause.subsumes` as the usual one
- `Clause.prune`, one pass
- `Clause.settle`, passes until one takes nothing away
- `Clause.reduce`, by a `ReductionStrategy`
-/

namespace ClauseInduction

abbrev CoverageTest := Clause → Clause → Bool

inductive ReductionStrategy where
  | singlePass
  | fixedPoint
deriving DecidableEq

instance : Inhabited ReductionStrategy := ⟨.singlePass⟩

namespace Clause

/-- Takes away, one after another, those literals of a list without which `kept` is still
covered by `C`. -/
def pruneEach (covers : CoverageTest) (C : Clause) : List Literal → Clause → Clause
  | [], kept => kept
  | l :: ls, kept =>
      if covers C (kept.erase l) then pruneEach covers C ls (kept.erase l)
      else pruneEach covers C ls kept

def prune (covers : CoverageTest) (C : Clause) : Clause :=
  pruneEach covers C C.literals C

def settle (covers : CoverageTest) : Nat → Clause → Clause
  | 0, C => C
  | n + 1, C =>
      if (C.prune covers).size = C.size then C.prune covers
      else settle covers n (C.prune covers)

/-- Takes redundant literals away.  Every repeated pass but the last takes a literal away, so
there are no more than literals, and one. -/
def reduce (covers : CoverageTest) : ReductionStrategy → Clause → Clause
  | .singlePass, C => C.prune covers
  | .fixedPoint, C => settle covers (C.size + 1) (C.prune covers)

/-! ## What a pass keeps -/

theorem literals_pruneEach_sublist (covers : CoverageTest) (C : Clause) (ls : List Literal)
    (kept : Clause) :
    (pruneEach covers C ls kept).literals.Sublist kept.literals := by
  induction ls generalizing kept with
  | nil => exact List.Sublist.refl _
  | cons l ls ih =>
      simp only [pruneEach]
      split
      · exact (ih (kept.erase l)).trans List.erase_sublist
      · exact ih kept

theorem literals_prune_sublist (covers : CoverageTest) (C : Clause) :
    (C.prune covers).literals.Sublist C.literals :=
  literals_pruneEach_sublist covers C C.literals C

theorem size_prune_le (covers : CoverageTest) (C : Clause) : (C.prune covers).size ≤ C.size :=
  (literals_prune_sublist covers C).length_le

end Clause

end ClauseInduction
