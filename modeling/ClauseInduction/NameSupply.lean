/-!
# Supplies of fresh names

A supply issues the names `stem ++ n`, where `n` is a 64-bit number that goes up by one from name
to name and from its last value round to zero.  A request lists the names that it must not be
given; the supply skips the numbers of those, and a skipped number is used up.

A supply keeps how far it has counted, without going round; the number of a name is the count
modulo the period.  So the difference of two counts is the number of values that were drawn
between them.

## Main definitions

- `NameSupply`, with `NameSupply.next` for the name at its count
- `NameSupply.fresh`, the next name that is not reserved
-/

namespace ClauseInduction

structure NameSupply where
  stem : String
  count : Nat
deriving DecidableEq

namespace NameSupply

def period : Nat :=
  0x10000000000000000

def defaultStem : String :=
  "V"

def ofStem (stem : String) : NameSupply :=
  ⟨stem, 1⟩

instance : Inhabited NameSupply := ⟨ofStem defaultStem⟩

def next (s : NameSupply) : String :=
  s.stem ++ toString (s.count % period)

def advance (s : NameSupply) : NameSupply :=
  { s with count := s.count + 1 }

def freshWithin (reserved : List String) : Nat → NameSupply → String × NameSupply
  | 0, s => (s.next, s.advance)
  | n + 1, s =>
      if s.next ∈ reserved then freshWithin reserved n s.advance else (s.next, s.advance)

/-- Issues the next name that is not reserved.  Different numbers have different names, so no
more names are skipped than are reserved. -/
def fresh (reserved : List String) (s : NameSupply) : String × NameSupply :=
  s.freshWithin reserved reserved.length

/-! ## Names and counts -/

theorem next_eq_next_iff {s t : NameSupply} (h : s.stem = t.stem) :
    s.next = t.next ↔ s.count % period = t.count % period := by
  constructor
  · intro e
    have e : toString (s.count % period) = toString (t.count % period) := by
      simpa [next, h] using e
    rw [Nat.toString_eq_ofList_toDigits, Nat.toString_eq_ofList_toDigits] at e
    have e := congrArg (fun ds => Nat.ofDigitChars 10 ds 0) (String.ofList_injective e)
    simpa using e
  · intro e
    rw [next, next, h, e]

@[simp]
theorem count_advance (s : NameSupply) : s.advance.count = s.count + 1 :=
  rfl

theorem stem_fresh (reserved : List String) (s : NameSupply) :
    (s.fresh reserved).2.stem = s.stem := by
  have h : ∀ (n : Nat) (t : NameSupply), (t.freshWithin reserved n).2.stem = t.stem := by
    intro n
    induction n with
    | zero => intro t; rfl
    | succ n ih =>
        intro t
        simp only [freshWithin]
        split
        · exact ih t.advance
        · rfl
  exact h reserved.length s

end NameSupply

end ClauseInduction
