import Mathlib.Data.Finset.Card
import Mathlib.Data.Finset.Range
import ClauseInduction.NameSupply

/-!
# Fresh names

The names of a supply repeat after one period and not before.  A request that draws less than a
period therefore never gives up: the names that it skips are different and all reserved, so there
are at most as many as reserved names, and the name after them is not reserved.
-/

namespace ClauseInduction
namespace NameSupply

def nameAt (s : NameSupply) (c : Nat) : String :=
  next { s with count := c }

theorem nameAt_congr {s t : NameSupply} (h : s.stem = t.stem) (c : Nat) :
    s.nameAt c = t.nameAt c := by
  rw [nameAt, nameAt, next, next, h]

theorem nameAt_eq_iff {s : NameSupply} {c d : Nat} :
    s.nameAt c = s.nameAt d ↔ c % period = d % period :=
  next_eq_next_iff rfl

theorem eq_of_nameAt_eq {s : NameSupply} (start : Nat) {c d : Nat} (hc : start ≤ c)
    (hc' : c < start + period) (hd : start ≤ d) (hd' : d < start + period)
    (h : s.nameAt c = s.nameAt d) : c = d := by
  have hmod : c % period = d % period := nameAt_eq_iff.mp h
  unfold period at *
  omega

/-!
# The search for a name
-/

theorem freshWithin_spec (reserved : List String) (n : Nat) (s : NameSupply) :
    ∃ c, s.count ≤ c ∧
      s.freshWithin reserved n = (s.nameAt c, { s with count := c + 1 }) ∧
      (∀ d, s.count ≤ d → d < c → s.nameAt d ∈ reserved) ∧
      (s.nameAt c ∈ reserved → c = s.count + n) := by
  induction n generalizing s with
  | zero =>
      refine ⟨s.count, Nat.le_refl _, rfl, ?_, fun _ => rfl⟩
      intro d hd hd'
      omega
  | succ n ih =>
      rw [freshWithin]
      by_cases hnext : s.next ∈ reserved
      · rw [if_pos hnext]
        rcases ih s.advance with ⟨c, hc, hresult, hskipped, hlast⟩
        rw [count_advance] at hc
        refine ⟨c, by omega, hresult, ?_, ?_⟩
        · intro d hd hd'
          by_cases hdc : d = s.count
          · rw [hdc]
            exact hnext
          · exact hskipped d (by rw [count_advance]; omega) hd'
        · intro hreserved
          have hlast' : c = s.count + 1 + n := hlast hreserved
          omega
      · rw [if_neg hnext]
        refine ⟨s.count, Nat.le_refl _, rfl, ?_, fun h => absurd h hnext⟩
        intro d hd hd'
        omega

/-- Different counts of a period have different names, so that a run of reserved ones is no longer
than the reserved names are many. -/
theorem le_card_of_nameAt_mem {reserved : List String} {s : NameSupply} {n : Nat}
    (hn : n ≤ period) (h : ∀ i < n, s.nameAt (s.count + i) ∈ reserved) :
    n ≤ reserved.toFinset.card := by
  have hinjective : Set.InjOn (fun i => s.nameAt (s.count + i)) (Finset.range n) := by
    intro i hi j hj hij
    rw [Finset.coe_range, Set.mem_Iio] at hi hj
    have heq := eq_of_nameAt_eq s.count (by omega) (by omega) (by omega) (by omega) hij
    omega
  calc
    n = (Finset.range n).card := (Finset.card_range n).symm
    _ ≤ reserved.toFinset.card := by
      refine Finset.card_le_card_of_injOn _ ?_ hinjective
      intro i hi
      rw [Finset.coe_range, Set.mem_Iio] at hi
      exact List.mem_toFinset.mpr (h i hi)

/-- The name issued is the one at the last count drawn; the names before it are reserved, and within
a period it is not. -/
theorem fresh_spec (reserved : List String) (s : NameSupply) :
    ∃ c, s.count ≤ c ∧ s.fresh reserved = (s.nameAt c, { s with count := c + 1 }) ∧
      (∀ d, s.count ≤ d → d < c → s.nameAt d ∈ reserved) ∧
      (c < s.count + period → s.nameAt c ∉ reserved) := by
  rcases freshWithin_spec reserved reserved.length s with ⟨c, hc, hresult, hskipped, hlast⟩
  refine ⟨c, hc, hresult, hskipped, ?_⟩
  intro hperiod hreserved
  have hcount : c = s.count + reserved.length := hlast hreserved
  have hlength : reserved.length + 1 ≤ reserved.toFinset.card := by
    refine le_card_of_nameAt_mem (s := s) (by omega) fun i hi => ?_
    by_cases hic : s.count + i = c
    · rw [hic]
      exact hreserved
    · exact hskipped _ (by omega) (by omega)
  have hcard := List.toFinset_card_le reserved
  omega

end NameSupply
end ClauseInduction
