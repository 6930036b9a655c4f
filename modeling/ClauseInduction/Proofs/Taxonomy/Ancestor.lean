import Mathlib.Logic.Relation
import ClauseInduction.Taxonomy.Ancestor

/-!
# Ancestors

A constant is an ancestor of another one when parent steps lead from the other one to it; every
constant is an ancestor of itself.  The walk of the ancestor rule only climbs, so the constant that
it returns is an ancestor of both constants that it starts from.
-/

namespace ClauseInduction

def ParentMap.Climbs (m : ParentMap) : String → String → Prop :=
  Relation.ReflTransGen fun c p => m.parent? c = some p

theorem ParentMap.meetWithin_cases {m : ParentMap} {n : Nat} {a b c : String}
    (h : m.meetWithin (n + 1) a b = some c) :
    (a = b ∧ a = c) ∨
    (∃ p, a ≠ b ∧ m.parent? a = some p ∧ m.meetWithin n b p = some c) ∨
    (∃ p, a ≠ b ∧ m.parent? a = none ∧ m.parent? b = some p ∧ m.meetWithin n a p = some c) := by
  rw [meetWithin] at h
  by_cases hab : a = b
  · rw [if_pos hab] at h
    exact Or.inl ⟨hab, Option.some.inj h⟩
  · rw [if_neg hab] at h
    cases hparent : m.parent? a with
    | some p =>
        rw [hparent] at h
        exact Or.inr (Or.inl ⟨p, hab, rfl, h⟩)
    | none =>
        rw [hparent] at h
        cases hparent' : m.parent? b with
        | some p =>
            rw [hparent'] at h
            exact Or.inr (Or.inr ⟨p, hab, rfl, rfl, h⟩)
        | none =>
            rw [hparent'] at h
            cases h

theorem ParentMap.climbs_of_meetWithin {m : ParentMap} {n : Nat} {a b c : String}
    (h : m.meetWithin n a b = some c) : m.Climbs a c ∧ m.Climbs b c := by
  induction n generalizing a b with
  | zero => cases h
  | succ n ih =>
      rcases meetWithin_cases h with ⟨rfl, rfl⟩ | ⟨p, -, hp, h⟩ | ⟨p, -, -, hp, h⟩
      · exact ⟨.refl, .refl⟩
      · rcases ih h with ⟨hb, hpc⟩
        exact ⟨.head hp hpc, hb⟩
      · rcases ih h with ⟨ha, hpc⟩
        exact ⟨ha, .head hp hpc⟩

namespace Taxonomy

/-- The first constant is the second one or lies above it; without a taxonomy it is the second. -/
def IsAncestor : Option Taxonomy → String → String → Prop
  | some T, c, d => T.Climbs d c
  | none, c, d => c = d

theorem IsAncestor.refl (taxonomy : Option Taxonomy) (c : String) : IsAncestor taxonomy c c := by
  cases taxonomy with
  | none => rfl
  | some T => exact Relation.ReflTransGen.refl

theorem IsAncestor.trans {taxonomy : Option Taxonomy} {a b c : String}
    (hab : IsAncestor taxonomy a b) (hbc : IsAncestor taxonomy b c) : IsAncestor taxonomy a c := by
  cases taxonomy with
  | none => exact Eq.trans hab hbc
  | some T => exact Relation.ReflTransGen.trans hbc hab

theorem isAncestor_of_rule {taxonomy : Option Taxonomy} {a b c : String}
    (h : rule taxonomy a b = some c) : IsAncestor taxonomy c a ∧ IsAncestor taxonomy c b := by
  cases taxonomy with
  | none => cases h
  | some T => exact ParentMap.climbs_of_meetWithin h

end Taxonomy

end ClauseInduction
