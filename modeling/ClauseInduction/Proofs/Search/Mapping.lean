import ClauseInduction.Proofs.Subsumption
import ClauseInduction.Proofs.Search.Trail

/-!
# Subsumption in one store

The search for a mapping with one store of bindings for all branches.  A match that fails leaves the
bindings that it made before it failed, and the search undoes them before it tries the next literal.
The outcome is that of the search that hands every branch its own bindings.
-/

namespace ClauseInduction

open Trailed

abbrev BindingTrail := Trailed Bindings String

namespace BindingTrail

def bind (x : String) (t : Term) (s : BindingTrail) : BindingTrail :=
  s.write ((x, t) :: s.store) x

def giveUp (before after : BindingTrail) : BindingTrail :=
  after.backtrack removeKey before.mark

end BindingTrail

open BindingTrail (giveUp)

/-!
# Matching in place
-/

namespace Term

mutual

def matchInPlace : Term → Term → BindingTrail → Bool × BindingTrail
  | var x, t, s =>
      match s.store.lookup x with
      | some u => (u = t, s)
      | none => (true, s.bind x t)
  | const c, const d, s => (c = d, s)
  | app f ss, app g ts, s =>
      if f = g ∧ ss.length = ts.length then matchListInPlace ss ts s else (false, s)
  | const _, var _, s => (false, s)
  | const _, app _ _, s => (false, s)
  | app _ _, var _, s => (false, s)
  | app _ _, const _, s => (false, s)

/-- Matches as far as both lists go. -/
def matchListInPlace : List Term → List Term → BindingTrail → Bool × BindingTrail
  | u :: us, t :: ts, s => andThen (matchInPlace u t s) (matchListInPlace us ts)
  | [], _, s => (true, s)
  | _ :: _, [], s => (true, s)

end

abbrev MatchesInPlace (result : Option Bindings) (s : BindingTrail) (r : Bool × BindingTrail) :
    Prop :=
  InPlace removeKey id result s r

theorem matchList?_eq_none_of_length_ne {us ts : List Term} (h : us.length ≠ ts.length)
    (b : Bindings) : matchList? us ts b = none := by
  induction us generalizing ts b with
  | nil =>
      cases ts with
      | nil => exact absurd rfl h
      | cons t ts => rfl
  | cons u us ih =>
      cases ts with
      | nil => rfl
      | cons t ts =>
          rw [matchList?]
          cases match? u t b with
          | none => rfl
          | some b' => exact ih (fun hlength => h (congrArg Nat.succ hlength)) b'

theorem matchList?_cons (u t : Term) (us ts : List Term) (b : Bindings) :
    matchList? (u :: us) (t :: ts) b = (match? u t b).bind (matchList? us ts) := by
  rw [matchList?]
  cases match? u t b <;> rfl

theorem matchListInPlace_spec {us : List Term}
    (ih : ∀ u ∈ us, ∀ (t : Term) (s : BindingTrail),
      MatchesInPlace (match? u t s.store) s (matchInPlace u t s))
    {ts : List Term} (hlength : us.length = ts.length) (s : BindingTrail) :
    MatchesInPlace (matchList? us ts s.store) s (matchListInPlace us ts s) := by
  induction us generalizing ts s with
  | nil =>
      cases ts with
      | nil => exact ⟨.refl, rfl⟩
      | cons t ts => cases hlength
  | cons u us ihus =>
      rcases List.forall_mem_cons.mp ih with ⟨hu, hus⟩
      cases ts with
      | nil => cases hlength
      | cons t ts =>
          rw [matchList?_cons, matchListInPlace]
          exact (hu t s).andThen fun _ => ihus hus (Nat.succ.inj hlength) _

theorem matchInPlace_spec (u t : Term) (s : BindingTrail) :
    MatchesInPlace (match? u t s.store) s (matchInPlace u t s) := by
  induction u generalizing t s with
  | var x =>
      rw [match?, matchInPlace]
      cases hx : s.store.lookup x with
      | some v =>
          refine ⟨.refl, ?_⟩
          simp
      | none => exact ⟨.write .refl (removeKey_cons hx t), rfl⟩
  | const c =>
      cases t with
      | const d =>
          refine ⟨.refl, ?_⟩
          simp [match?, matchInPlace, eq_comm]
      | var y => exact ⟨.refl, by simp [match?, matchInPlace]⟩
      | app g ts => exact ⟨.refl, by simp [match?, matchInPlace]⟩
  | app f us ih =>
      cases t with
      | var y => exact ⟨.refl, rfl⟩
      | const d => exact ⟨.refl, rfl⟩
      | app g ts =>
          rw [match?, matchInPlace]
          by_cases hfg : f = g
          · by_cases hlength : us.length = ts.length
            · rw [if_pos hfg, if_pos ⟨hfg, hlength⟩]
              exact matchListInPlace_spec ih hlength s
            · rw [if_pos hfg, if_neg fun h => hlength h.right,
                matchList?_eq_none_of_length_ne hlength]
              exact ⟨.refl, rfl⟩
          · rw [if_neg hfg, if_neg fun h => hfg h.left]
            exact ⟨.refl, rfl⟩

end Term

def Literal.matchInPlace (l m : Literal) (s : BindingTrail) : Bool × BindingTrail :=
  if l.Compatible m then Term.matchListInPlace l.args m.args s else (false, s)

theorem Literal.matchInPlace_spec (l m : Literal) (s : BindingTrail) :
    Term.MatchesInPlace (l.match? m s.store) s (l.matchInPlace m s) := by
  rw [Literal.match?, Literal.matchInPlace]
  by_cases hlm : l.Comparable m
  · by_cases harity : l.arity = m.arity
    · rw [if_pos hlm, if_pos ⟨hlm, harity⟩]
      exact Term.matchListInPlace_spec (fun u _ => Term.matchInPlace_spec u) harity s
    · rw [if_pos hlm, if_neg fun h => harity h.right, Term.matchList?_eq_none_of_length_ne harity]
      exact ⟨.refl, rfl⟩
  · rw [if_neg hlm, if_neg fun h => hlm h.left]
    exact ⟨.refl, rfl⟩

/-- The match fails at the second argument and leaves the binding that the first one made. -/
example : Literal.matchInPlace ⟨true, "p", [.var "X", .const "a"]⟩
    ⟨true, "p", [.const "b", .const "c"]⟩ ⟨[], []⟩ = (false, ⟨[("X", .const "b")], ["X"]⟩) :=
  rfl

/-!
# The search
-/

namespace Clause

def mapInPlace (specific : List Literal) : List Literal → BindingTrail → Bool × BindingTrail
  | [], s => (true, s)
  | l :: ls, s =>
      tryEach giveUp (fun m s => andThen (l.matchInPlace m s) (mapInPlace specific ls)) specific s

/-- A search that fails leaves the store as it was. -/
theorem mapInPlace_spec (specific ls : List Literal) (s : BindingTrail) :
    (mapInPlace specific ls s).1 = embeds (ls.map fun l => (l, specific)) s.store ∧
      ((mapInPlace specific ls s).1 = false → (mapInPlace specific ls s).2 = s) := by
  induction ls generalizing s with
  | nil => exact ⟨rfl, nofun⟩
  | cons l ls ih =>
      have hattempt : ∀ m ∈ specific,
          (andThen (l.matchInPlace m s) (mapInPlace specific ls)).1 = false →
            giveUp s (andThen (l.matchInPlace m s) (mapInPlace specific ls)).2 = s := by
        intro m _
        have hmatch := (l.matchInPlace_spec m s).since
        exact giveUp_andThen hmatch.backtrack fun _ => (ih _).right
      rcases tryEach_spec giveUp
        (fun m s => andThen (l.matchInPlace m s) (mapInPlace specific ls)) hattempt with
        ⟨hany, hleft⟩
      refine ⟨?_, hleft⟩
      rw [mapInPlace, hany, List.map_cons, embeds]
      congr 1
      funext m
      rw [(l.matchInPlace_spec m s).result_eq, andThen]
      cases hanswer : (l.matchInPlace m s).1 with
      | false => rfl
      | true => exact (ih _).left

def subsumesInPlace (C D : Clause) : Bool :=
  !C.literals.any (fun l => (D.candidates l).isEmpty) &&
    (mapInPlace D.literals ((ranked C D).map Prod.fst) ⟨[], []⟩).1

theorem subsumesInPlace_eq (C D : Clause) : C.subsumesInPlace D = C.subsumes D := by
  have hgoals : GoalsFor C D (((ranked C D).map Prod.fst).map fun l => (l, D.literals)) :=
    goalsFor_map (fun l => ((goalsFor_ranked C D).mem_iff l).symm) fun _ => Iff.rfl
  rw [Bool.eq_iff_iff, subsumesInPlace, Bool.and_eq_true, (mapInPlace_spec _ _ _).left,
    hgoals.embeds_iff, subsumes_iff, and_iff_right_iff_imp]
  intro hsubsumes
  rw [Bool.not_eq_true', List.any_eq_false]
  intro l hl
  simpa using hsubsumes.candidates_ne_nil hl

end Clause

end ClauseInduction
