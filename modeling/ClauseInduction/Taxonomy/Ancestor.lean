import ClauseInduction.Taxonomy.Basic

/-!
# Common ancestors

Generalization asks which constant, if any, stands for two different ones.  An `AncestorRule`
answers; a taxonomy answers with the meeting point of a walk up from both constants.
-/

namespace ClauseInduction

abbrev AncestorRule := String → String → Option String

def noAncestor : AncestorRule :=
  fun _ _ => none

/-- Walks up from two constants until they meet.  A step replaces the first constant by its
parent and swaps the two; when the first one is a root, it replaces the second one by its parent
instead.  There is no meeting point once both are roots. -/
def ParentMap.meetWithin (m : ParentMap) : Nat → AncestorRule
  | 0, _, _ => none
  | n + 1, a, b =>
      if a = b then some a
      else
        match m.parent? a with
        | some p => m.meetWithin n b p
        | none =>
            match m.parent? b with
            | some p => m.meetWithin n a p
            | none => none

namespace Taxonomy

/-- The meeting point of a walk up from two constants.  Each step climbs an edge and neither
constant climbs an edge twice, so two steps for each edge, and one to compare the ends, are
enough. -/
def closestCommonAncestor (T : Taxonomy) : AncestorRule :=
  T.meetWithin (2 * T.size + 1)

def rule : Option Taxonomy → AncestorRule
  | some T => T.closestCommonAncestor
  | none => noAncestor

end Taxonomy

end ClauseInduction
