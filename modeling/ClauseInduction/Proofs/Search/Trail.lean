import Mathlib.Data.List.Basic

/-!
# Searching in one store

A search may keep one store for all of its branches instead of handing every branch a value of its
own.  It notes on a trail what it writes, sets a mark before each attempt, and gives a failed
attempt up by erasing what was noted since.  Whoever calls such a search sees a store that is
written to only if the call succeeds.
-/

namespace ClauseInduction

def removeKey {β : Type} (x : String) (map : List (String × β)) : List (String × β) :=
  map.filter fun p => p.1 ≠ x

theorem removeKey_cons {β : Type} {x : String} {map : List (String × β)}
    (h : map.lookup x = none) (b : β) : removeKey x ((x, b) :: map) = map := by
  rw [removeKey, List.filter_cons_of_neg (by simp), List.filter_eq_self]
  intro p hp
  have hne : x ≠ p.1 := by simpa using List.lookup_eq_none_iff.mp h p hp
  simpa using hne.symm

/-- A store, and what has been written to it, the last entry first. -/
structure Trailed (σ ε : Type) where
  store : σ
  trail : List ε

namespace Trailed

variable {σ ε β γ : Type}

def write (store : σ) (e : ε) (s : Trailed σ ε) : Trailed σ ε :=
  ⟨store, e :: s.trail⟩

def mark (s : Trailed σ ε) : Nat :=
  s.trail.length

/-- Takes entries off a trail until it is as long as the mark, and erases each from the store. -/
def unwind (erase : ε → σ → σ) (mark : Nat) : List ε → σ → Trailed σ ε
  | [], store => ⟨store, []⟩
  | e :: trail, store =>
      if mark < trail.length + 1 then unwind erase mark trail (erase e store)
      else ⟨store, e :: trail⟩

def backtrack (erase : ε → σ → σ) (mark : Nat) (s : Trailed σ ε) : Trailed σ ε :=
  unwind erase mark s.trail s.store

/-!
# Writing and erasing
-/

/-- Nothing has happened since `s` but writing, and every entry can be erased again. -/
inductive Since (erase : ε → σ → σ) (s : Trailed σ ε) : Trailed σ ε → Prop where
  | refl : Since erase s s
  | write {s' : Trailed σ ε} {store : σ} {e : ε} (h : Since erase s s')
      (herase : erase e store = s'.store) : Since erase s (s'.write store e)

variable {erase : ε → σ → σ} {s s' s'' : Trailed σ ε}

theorem Since.trans (h : Since erase s s') (h' : Since erase s' s'') : Since erase s s'' := by
  induction h' with
  | refl => exact h
  | write _ herase ih => exact ih.write herase

theorem Since.mark_le (h : Since erase s s') : s.mark ≤ s'.mark := by
  induction h with
  | refl => exact Nat.le_refl _
  | write _ _ ih => exact Nat.le_succ_of_le ih

theorem Since.backtrack (h : Since erase s s') : s'.backtrack erase s.mark = s := by
  induction h with
  | refl =>
      rcases s with ⟨store, _ | ⟨e, trail⟩⟩
      · rfl
      · exact if_neg (Nat.lt_irrefl _)
  | @write s' store e h herase ih =>
      have hlt : s.mark < s'.trail.length + 1 := Nat.lt_succ_of_le h.mark_le
      rw [Trailed.backtrack, Trailed.write, unwind, if_pos hlt, herase]
      exact ih

/-!
# Calls
-/

def andThen {S : Type} (r : Bool × S) (next : S → Bool × S) : Bool × S :=
  if r.1 then next r.2 else (false, r.2)

/-- The call answers whether there is a result; it leaves the result in the store, and what it
writes can be erased. -/
structure InPlace (erase : ε → σ → σ) (view : σ → β) (result : Option β) (s : Trailed σ ε)
    (r : Bool × Trailed σ ε) : Prop where
  since : Since erase s r.2
  result_eq : result = if r.1 then some (view r.2.store) else none

theorem InPlace.andThen {view : σ → β} {result : Option β} {r : Bool × Trailed σ ε}
    {f : β → Option β} {next : Trailed σ ε → Bool × Trailed σ ε}
    (h : InPlace erase view result s r)
    (hnext : r.1 = true → InPlace erase view (f (view r.2.store)) r.2 (next r.2)) :
    InPlace erase view (result.bind f) s (Trailed.andThen r next) := by
  rcases r with ⟨answer, s'⟩
  cases answer with
  | false => exact ⟨h.since, by rw [h.result_eq]; rfl⟩
  | true =>
      have hrest := hnext rfl
      refine ⟨h.since.trans hrest.since, ?_⟩
      rw [h.result_eq]
      exact hrest.result_eq

/-- Makes one attempt after another, up to the first that succeeds.  A failed attempt is given up
before the next one is made. -/
def tryEach {α S : Type} (giveUp : S → S → S) (attempt : α → S → Bool × S) :
    List α → S → Bool × S
  | [], s => (false, s)
  | a :: as, s =>
      let r := attempt a s
      if r.1 then r else tryEach giveUp attempt as (giveUp s r.2)

/-- If giving up brings the state back, all attempts are made in the same state, and it is the state
that is left when all of them fail. -/
theorem tryEach_spec {α S : Type} (giveUp : S → S → S) (attempt : α → S → Bool × S) {as : List α}
    {s : S} (h : ∀ a ∈ as, (attempt a s).1 = false → giveUp s (attempt a s).2 = s) :
    (tryEach giveUp attempt as s).1 = as.any (fun a => (attempt a s).1) ∧
      ((tryEach giveUp attempt as s).1 = false → (tryEach giveUp attempt as s).2 = s) := by
  induction as with
  | nil => exact ⟨rfl, fun _ => rfl⟩
  | cons a as ih =>
      rcases List.forall_mem_cons.mp h with ⟨ha, has⟩
      rw [tryEach, List.any_cons]
      cases hanswer : (attempt a s).1 with
      | true => simp [hanswer]
      | false =>
          simp only [Bool.false_eq_true, if_false, ha hanswer, Bool.false_or]
          exact ih has

/-- What follows a step leaves the state as it was if it fails, so only the step has to be given
up. -/
theorem giveUp_andThen {S : Type} {giveUp : S → S → S} {s : S} {r : Bool × S}
    {next : S → Bool × S} (h : giveUp s r.2 = s)
    (hnext : r.1 = true → (next r.2).1 = false → (next r.2).2 = r.2)
    (hfail : (andThen r next).1 = false) : giveUp s (andThen r next).2 = s := by
  rcases r with ⟨answer, s'⟩
  cases answer with
  | false => exact h
  | true => exact (congrArg (giveUp s) (hnext rfl hfail)).trans h

end Trailed

end ClauseInduction
