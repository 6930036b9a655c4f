import ClauseInduction.Proofs.Variant
import ClauseInduction.Proofs.Search.Trail

/-!
# Variants in one store

The search for a renaming with one store for all branches: a map of names, the map back, a trail of
the pairs of names, and for every literal of the second clause a flag that says whether it has a
partner.  Pairs of names are undone along the trail and flags one by one.  The outcome is that of
the search that hands every branch its own pairs and the literals that are left.
-/

namespace ClauseInduction

open Trailed

structure TwoWay where
  forward : List (String × String)
  backward : List (String × String)

namespace TwoWay

structure Inverse (w : TwoWay) : Prop where
  backward_eq : w.backward = w.forward.map Prod.swap
  nodup_left : (w.forward.map Prod.fst).Nodup
  nodup_right : (w.forward.map Prod.snd).Nodup

def add (x y : String) (w : TwoWay) : TwoWay :=
  ⟨(x, y) :: w.forward, (y, x) :: w.backward⟩

def remove (pair : String × String) (w : TwoWay) : TwoWay :=
  ⟨removeKey pair.1 w.forward, removeKey pair.2 w.backward⟩

theorem remove_add {x y : String} {w : TwoWay} (hx : w.forward.lookup x = none)
    (hy : w.backward.lookup y = none) : remove (x, y) (w.add x y) = w := by
  rw [remove, add, removeKey_cons hx, removeKey_cons hy]

theorem lookup_eq_some_iff_mem {ps : List (String × String)} (h : (ps.map Prod.fst).Nodup)
    {x y : String} : ps.lookup x = some y ↔ (x, y) ∈ ps := by
  induction ps with
  | nil => simp
  | cons p ps ih =>
      rcases p with ⟨a, b⟩
      rcases List.nodup_cons.mp h with ⟨ha, hps⟩
      rw [List.lookup_cons, List.mem_cons]
      by_cases hxa : x = a
      · subst hxa
        have hnone : (x, y) ∉ ps := fun hmem => ha (List.mem_map.mpr ⟨_, hmem, rfl⟩)
        simp [hnone, eq_comm]
      · rw [beq_false_of_ne hxa]
        simp [hxa, ih hps]

namespace Inverse

theorem empty : Inverse ⟨[], []⟩ :=
  ⟨rfl, .nil, .nil⟩

variable {w : TwoWay} {x y : String}

theorem lookup_forward (h : w.Inverse) : w.forward.lookup x = some y ↔ (x, y) ∈ w.forward :=
  lookup_eq_some_iff_mem h.nodup_left

theorem lookup_backward (h : w.Inverse) : w.backward.lookup y = some x ↔ (x, y) ∈ w.forward := by
  have hnodup : (w.backward.map Prod.fst).Nodup := by
    rw [h.backward_eq, List.map_map]
    exact h.nodup_right
  rw [lookup_eq_some_iff_mem hnodup, h.backward_eq]
  simp

theorem add (h : w.Inverse) (hx : w.forward.lookup x = none) (hy : w.backward.lookup y = none) :
    (w.add x y).Inverse where
  backward_eq := by
    rw [TwoWay.add, h.backward_eq]
    rfl
  nodup_left := by
    refine List.nodup_cons.mpr ⟨fun hmem => ?_, h.nodup_left⟩
    rcases List.mem_map.mp hmem with ⟨⟨x', z⟩, hp, rfl⟩
    rw [h.lookup_forward.mpr hp] at hx
    cases hx
  nodup_right := by
    refine List.nodup_cons.mpr ⟨fun hmem => ?_, h.nodup_right⟩
    rcases List.mem_map.mp hmem with ⟨⟨z, y'⟩, hp, rfl⟩
    rw [h.lookup_backward.mpr hp] at hy
    cases hy

/-- Looking both names up finds what the first pair with one of them says. -/
theorem extend?_eq (h : w.Inverse) (x y : String) :
    Renaming.extend? x y w.forward =
      match w.forward.lookup x, w.backward.lookup y with
      | some z, _ => if z = y then some w.forward else none
      | none, some _ => none
      | none, none => some ((x, y) :: w.forward) := by
  rw [Renaming.extend?]
  cases hfind : w.forward.find? (fun p => p.1 = x || p.2 = y) with
  | none =>
      have hfresh : ∀ p ∈ w.forward, p.1 ≠ x ∧ p.2 ≠ y := by simpa using hfind
      have hx : w.forward.lookup x = none := by
        rw [Option.eq_none_iff_forall_ne_some]
        exact fun z hz => (hfresh _ (h.lookup_forward.mp hz)).left rfl
      have hy : w.backward.lookup y = none := by
        rw [Option.eq_none_iff_forall_ne_some]
        exact fun z hz => (hfresh _ (h.lookup_backward.mp hz)).right rfl
      rw [hx, hy]
  | some p =>
      rcases p with ⟨a, b⟩
      have hmem : (a, b) ∈ w.forward := List.mem_of_find?_eq_some hfind
      have hab : a = x ∨ b = y := by simpa using List.find?_some hfind
      cases hx : w.forward.lookup x with
      | some z =>
          -- the pair that was found is the one that the map has, or shares its second name with it
          by_cases hzy : z = y
          · subst hzy
            have hpair : (a, b) = (x, z) := by
              rcases hab with rfl | rfl
              · rw [h.lookup_forward.mpr hmem] at hx
                cases hx
                rfl
              · have hback := h.lookup_backward.mpr (h.lookup_forward.mp hx)
                rw [h.lookup_backward.mpr hmem] at hback
                cases hback
                rfl
            simp [hpair]
          · have hpair : (a, b) ≠ (x, y) := by
              intro hpair
              rw [hpair] at hmem
              rw [h.lookup_forward.mpr hmem] at hx
              cases hx
              exact hzy rfl
            simp [hpair, hzy]
      | none =>
          have hax : a ≠ x := by
            rintro rfl
            rw [h.lookup_forward.mpr hmem] at hx
            cases hx
          have hby : b = y := hab.resolve_left hax
          subst hby
          rw [h.lookup_backward.mpr hmem]
          simp [hax]

end Inverse

end TwoWay

abbrev RenamingTrail := Trailed TwoWay (String × String)

/-!
# Renaming in place
-/

/-- The call does in the store what renaming with pairs of its own does, and keeps the two maps
inverse to each other. -/
structure RenamesInPlace (result : Option Renaming) (s : RenamingTrail)
    (r : Bool × RenamingTrail) : Prop extends
    InPlace TwoWay.remove TwoWay.forward result s r where
  inverse : r.2.store.Inverse

namespace Term

mutual

def renameInPlace : Term → Term → RenamingTrail → Bool × RenamingTrail
  | var x, var y, s =>
      match s.store.forward.lookup x, s.store.backward.lookup y with
      | some z, _ => (z = y, s)
      | none, some _ => (false, s)
      | none, none => (true, s.write (s.store.add x y) (x, y))
  | const c, const d, s => (c = d, s)
  | app f ss, app g ts, s =>
      if f = g ∧ ss.length = ts.length then renameListInPlace ss ts s else (false, s)
  | var _, const _, s => (false, s)
  | var _, app _ _, s => (false, s)
  | const _, var _, s => (false, s)
  | const _, app _ _, s => (false, s)
  | app _ _, var _, s => (false, s)
  | app _ _, const _, s => (false, s)

def renameListInPlace : List Term → List Term → RenamingTrail → Bool × RenamingTrail
  | u :: us, t :: ts, s => andThen (renameInPlace u t s) (renameListInPlace us ts)
  | [], _, s => (true, s)
  | _ :: _, [], s => (true, s)

end

theorem renameList?_eq_none_of_length_ne {us ts : List Term} (h : us.length ≠ ts.length)
    (r : Renaming) : renameList? us ts r = none := by
  induction us generalizing ts r with
  | nil =>
      cases ts with
      | nil => exact absurd rfl h
      | cons t ts => rfl
  | cons u us ih =>
      cases ts with
      | nil => rfl
      | cons t ts =>
          rw [renameList?]
          cases rename? u t r with
          | none => rfl
          | some r' => exact ih (fun hlength => h (congrArg Nat.succ hlength)) r'

theorem renameList?_cons (u t : Term) (us ts : List Term) (r : Renaming) :
    renameList? (u :: us) (t :: ts) r = (rename? u t r).bind (renameList? us ts) := by
  rw [renameList?]
  cases rename? u t r <;> rfl

theorem renameListInPlace_spec {us : List Term}
    (ih : ∀ u ∈ us, ∀ (t : Term) (s : RenamingTrail), s.store.Inverse →
      RenamesInPlace (rename? u t s.store.forward) s (renameInPlace u t s))
    {ts : List Term} (hlength : us.length = ts.length) {s : RenamingTrail}
    (hs : s.store.Inverse) :
    RenamesInPlace (renameList? us ts s.store.forward) s (renameListInPlace us ts s) := by
  induction us generalizing ts s with
  | nil =>
      cases ts with
      | nil => exact ⟨⟨.refl, rfl⟩, hs⟩
      | cons t ts => cases hlength
  | cons u us ihus =>
      rcases List.forall_mem_cons.mp ih with ⟨hu, hus⟩
      cases ts with
      | nil => cases hlength
      | cons t ts =>
          have hfirst := hu t s hs
          have hrest := ihus hus (Nat.succ.inj hlength) hfirst.inverse
          rw [renameList?_cons, renameListInPlace]
          refine ⟨hfirst.andThen fun _ => hrest.toInPlace, ?_⟩
          rw [andThen]
          cases (renameInPlace u t s).1 with
          | false => exact hfirst.inverse
          | true => exact hrest.inverse

theorem renameInPlace_spec (u t : Term) {s : RenamingTrail} (hs : s.store.Inverse) :
    RenamesInPlace (rename? u t s.store.forward) s (renameInPlace u t s) := by
  induction u generalizing t s with
  | var x =>
      cases t with
      | var y =>
          rw [rename?, renameInPlace, hs.extend?_eq]
          cases hx : s.store.forward.lookup x with
          | some z =>
              refine ⟨⟨.refl, ?_⟩, hs⟩
              simp
          | none =>
              cases hy : s.store.backward.lookup y with
              | some z => exact ⟨⟨.refl, rfl⟩, hs⟩
              | none =>
                  exact ⟨⟨.write .refl (TwoWay.remove_add hx hy), rfl⟩, hs.add hx hy⟩
      | const d => exact ⟨⟨.refl, rfl⟩, hs⟩
      | app g ts => exact ⟨⟨.refl, rfl⟩, hs⟩
  | const c =>
      cases t with
      | const d =>
          refine ⟨⟨.refl, ?_⟩, hs⟩
          simp [rename?, renameInPlace]
      | var y => exact ⟨⟨.refl, rfl⟩, hs⟩
      | app g ts => exact ⟨⟨.refl, rfl⟩, hs⟩
  | app f us ih =>
      cases t with
      | var y => exact ⟨⟨.refl, rfl⟩, hs⟩
      | const d => exact ⟨⟨.refl, rfl⟩, hs⟩
      | app g ts =>
          rw [rename?, renameInPlace]
          by_cases hfg : f = g
          · by_cases hlength : us.length = ts.length
            · rw [if_pos hfg, if_pos ⟨hfg, hlength⟩]
              exact renameListInPlace_spec (fun u hu t s hs => ih u hu t hs) hlength hs
            · rw [if_pos hfg, if_neg fun h => hlength h.right,
                renameList?_eq_none_of_length_ne hlength]
              exact ⟨⟨.refl, rfl⟩, hs⟩
          · rw [if_neg hfg, if_neg fun h => hfg h.left]
            exact ⟨⟨.refl, rfl⟩, hs⟩

end Term

theorem Literal.rename?_of_not_compatible {l m : Literal} (h : ¬ l.Compatible m) (r : Renaming) :
    l.rename? m r = none := by
  rw [Literal.rename?]
  by_cases hlm : l.Comparable m
  · rw [if_pos hlm]
    exact Term.renameList?_eq_none_of_length_ne (fun harity => h ⟨hlm, harity⟩) r
  · exact if_neg hlm

/-!
# Flags
-/

def unflagged (ms : List Literal) (used : List Bool) : List Literal :=
  ((ms.zip used).filter fun p => !p.2).map Prod.fst

theorem unflagged_cons (m : Literal) (ms : List Literal) (b : Bool) (used : List Bool) :
    unflagged (m :: ms) (b :: used) = if b then unflagged ms used else m :: unflagged ms used := by
  cases b <;> rfl

theorem unflagged_replicate (ms : List Literal) :
    unflagged ms (List.replicate ms.length false) = ms := by
  induction ms with
  | nil => rfl
  | cons m ms ih =>
      rw [List.length_cons, List.replicate_succ, unflagged_cons, ih]
      rfl

theorem mem_unflagged {ms : List Literal} {used : List Bool} {m : Literal} :
    m ∈ unflagged ms used ↔ ∃ j : Nat, ms[j]? = some m ∧ used[j]? = some false := by
  rw [unflagged, List.mem_map]
  constructor
  · rintro ⟨⟨m', b⟩, hmem, rfl⟩
    rcases List.mem_filter.mp hmem with ⟨hzip, hb⟩
    rcases List.mem_iff_getElem?.mp hzip with ⟨j, hj⟩
    rcases List.getElem?_zip_eq_some.mp hj with ⟨hm, hused⟩
    refine ⟨j, hm, ?_⟩
    rw [hused]
    simpa using hb
  · rintro ⟨j, hm, hused⟩
    refine ⟨(m, false), List.mem_filter.mpr ⟨?_, rfl⟩, rfl⟩
    exact List.mem_iff_getElem?.mpr ⟨j, List.getElem?_zip_eq_some.mpr ⟨hm, hused⟩⟩

theorem unflagged_set {ms : List Literal} (hms : ms.Nodup) {used : List Bool} {j : Nat}
    {m : Literal} (hm : ms[j]? = some m) (hused : used[j]? = some false) :
    unflagged ms (used.set j true) = (unflagged ms used).erase m := by
  induction ms generalizing used j with
  | nil => cases hm
  | cons k ms ih =>
      rcases List.nodup_cons.mp hms with ⟨hk, hms⟩
      cases used with
      | nil => cases hused
      | cons b used =>
          cases j with
          | zero =>
              cases hm
              cases hused
              rw [List.set_cons_zero, unflagged_cons, unflagged_cons]
              exact (List.erase_cons_head ..).symm
          | succ j =>
              have hne : k ≠ m := fun hkm => hk (hkm ▸ List.mem_of_getElem? hm)
              rw [List.set_cons_succ, unflagged_cons, unflagged_cons, ih hms hm hused]
              cases b with
              | true => rfl
              | false => exact (List.erase_cons_tail (by simpa using hne)).symm

theorem set_set_of_getElem? {used : List Bool} {j : Nat} (h : used[j]? = some false) :
    (used.set j true).set j false = used := by
  rw [List.set_set]
  rcases List.getElem?_eq_some_iff.mp h with ⟨hj, hvalue⟩
  rw [← hvalue, List.set_getElem_self]

/-!
# The search
-/

/-- What the search shares between its branches: the flags of the literals of the second clause, and
the renaming. -/
structure PairingState where
  used : List Bool
  names : RenamingTrail

namespace PairingState

structure Sound (second : List Literal) (s : PairingState) : Prop where
  length_eq : s.used.length = second.length
  inverse : s.names.store.Inverse

def giveUp (before after : PairingState) : PairingState :=
  { after with names := after.names.backtrack TwoWay.remove before.names.mark }

def pairWith (s : PairingState) (l : Literal) (place : Literal × Nat) : Bool × PairingState :=
  if s.used.getD place.2 false = true ∨ ¬ l.Compatible place.1 then (false, s)
  else
    let r := Term.renameListInPlace l.args place.1.args s.names
    (r.1, { s with names := r.2 })

/-- Searches with a flag up; if the search fails, the flag goes down again. -/
def withFlag (j : Nat) (search : PairingState → Bool × PairingState) (s : PairingState) :
    Bool × PairingState :=
  let r := search { s with used := s.used.set j true }
  if r.1 then r else (false, { r.2 with used := r.2.used.set j false })

theorem withFlag_spec {s : PairingState} {j : Nat} {search : PairingState → Bool × PairingState}
    (hused : s.used[j]? = some false)
    (h : (search { s with used := s.used.set j true }).1 = false →
      (search { s with used := s.used.set j true }).2 = { s with used := s.used.set j true }) :
    (withFlag j search s).1 = (search { s with used := s.used.set j true }).1 ∧
      ((withFlag j search s).1 = false → (withFlag j search s).2 = s) := by
  rw [withFlag]
  cases hanswer : (search { s with used := s.used.set j true }).1 with
  | true => simp [hanswer]
  | false => simp [h hanswer, set_set_of_getElem? hused]

end PairingState

namespace Clause

open PairingState

def pairInPlace (second : List Literal) : List Literal → PairingState → Bool × PairingState
  | [], s => (true, s)
  | l :: ls, s =>
      tryEach giveUp
        (fun place s => andThen (s.pairWith l place) (withFlag place.2 (pairInPlace second ls)))
        second.zipIdx s

section Attempts

variable {second ls : List Literal} {s : PairingState} {l m : Literal} {j : Nat}

theorem giveUp_eq_of_since {names : RenamingTrail} (h : Since TwoWay.remove s.names names) :
    giveUp s { s with names } = s := by
  rw [giveUp, h.backtrack]

/-- What the search has to do for the literals that are left: find a pairing if there is one, and
leave the state as it was if there is none. -/
def SearchesFrom (second ls : List Literal) (s : PairingState) : Prop :=
  (pairInPlace second ls s).1 = pairsUp ls (unflagged second s.used) s.names.store.forward ∧
    ((pairInPlace second ls s).1 = false → (pairInPlace second ls s).2 = s)

/-- A place whose literal has no partner is tried with its flag up, and with the names that pairing
the two literals adds. -/
theorem attempt_spec (hsecond : second.Nodup) (hs : s.Sound second) (hm : second[j]? = some m)
    (ih : ∀ s' : PairingState, s'.Sound second → SearchesFrom second ls s') :
    ((andThen (s.pairWith l (m, j)) (withFlag j (pairInPlace second ls))).1 = true ↔
      s.used[j]? = some false ∧ ∃ r ∈ l.rename? m s.names.store.forward,
        pairsUp ls ((unflagged second s.used).erase m) r = true) ∧
    ((andThen (s.pairWith l (m, j)) (withFlag j (pairInPlace second ls))).1 = false →
      giveUp s (andThen (s.pairWith l (m, j)) (withFlag j (pairInPlace second ls))).2 = s) := by
  have hj : j < s.used.length := by
    rw [hs.length_eq]
    exact (List.getElem?_eq_some_iff.mp hm).choose
  cases hflag : s.used[j] with
  | true =>
      have hpair : s.pairWith l (m, j) = (false, s) := if_pos (Or.inl (by simp [hj, hflag]))
      simp [hpair, andThen, hj, hflag, giveUp_eq_of_since .refl]
  | false =>
      have hused : s.used[j]? = some false := by simp [hj, hflag]
      by_cases hlm : l.Compatible m
      · have hq := Term.renameListInPlace_spec
          (fun u _ t s hs => Term.renameInPlace_spec u t hs) hlm.right hs.inverse
        have hrename : l.rename? m s.names.store.forward =
            Term.renameList? l.args m.args s.names.store.forward := if_pos hlm.left
        have hpair : s.pairWith l (m, j) =
            ((Term.renameListInPlace l.args m.args s.names).1,
              { s with names := (Term.renameListInPlace l.args m.args s.names).2 }) :=
          if_neg (by simp [hj, hflag, hlm])
        rw [hrename, hpair, hq.result_eq]
        generalize Term.renameListInPlace l.args m.args s.names = q at hq
        rcases q with ⟨answer, names⟩
        cases answer with
        | false => simp [andThen, giveUp_eq_of_since hq.since]
        | true =>
            have hsound : Sound second ⟨s.used.set j true, names⟩ :=
              ⟨by rw [List.length_set, hs.length_eq], hq.inverse⟩
            rcases ih _ hsound with ⟨hanswer, hleft⟩
            rcases withFlag_spec (s := { s with names }) hused hleft with ⟨hflagged, hback⟩
            rw [hanswer, unflagged_set hsecond hm hused] at hflagged
            refine ⟨?_, giveUp_andThen (giveUp_eq_of_since hq.since) fun _ => hback⟩
            simp [andThen, hflagged, hused]
      · have hpair : s.pairWith l (m, j) = (false, s) := if_pos (Or.inr hlm)
        simp [hpair, andThen, Literal.rename?_of_not_compatible hlm, giveUp_eq_of_since .refl]

end Attempts

/-- The search finds the pairings that the search with values of its own finds, and a search that
fails leaves flags, maps and trail as they were. -/
theorem pairInPlace_spec {second : List Literal} (hsecond : second.Nodup) (ls : List Literal)
    {s : PairingState} (hs : s.Sound second) : SearchesFrom second ls s := by
  induction ls generalizing s with
  | nil => exact ⟨rfl, nofun⟩
  | cons l ls ih =>
      have hattempt : ∀ place ∈ second.zipIdx, second[place.2]? = some place.1 :=
        fun place hplace => List.mem_zipIdx_iff_getElem?.mp hplace
      rcases tryEach_spec giveUp
        (fun place s => andThen (s.pairWith l place) (withFlag place.2 (pairInPlace second ls)))
        (fun place hplace => (attempt_spec hsecond hs (hattempt place hplace) fun _ => ih).right)
        with ⟨hany, hleft⟩
      refine ⟨?_, hleft⟩
      rw [pairInPlace, hany, Bool.eq_iff_iff, List.any_eq_true, pairsUp, List.any_eq_true]
      constructor
      · rintro ⟨⟨m, j⟩, hplace, hanswer⟩
        have hm := hattempt _ hplace
        rcases (attempt_spec hsecond hs hm fun _ => ih).left.mp hanswer with ⟨hused, r, hr, hrest⟩
        refine ⟨m, mem_unflagged.mpr ⟨j, hm, hused⟩, ?_⟩
        rw [Option.mem_def.mp hr]
        exact hrest
      · rintro ⟨m, hmem, hanswer⟩
        rcases mem_unflagged.mp hmem with ⟨j, hm, hused⟩
        refine ⟨(m, j), List.mem_zipIdx_iff_getElem?.mpr hm, ?_⟩
        refine (attempt_spec hsecond hs hm fun _ => ih).left.mpr ⟨hused, ?_⟩
        cases hr : l.rename? m s.names.store.forward with
        | none => simp [hr] at hanswer
        | some r => exact ⟨r, rfl, by simpa [hr] using hanswer⟩

def isVariantInPlace (C D : Clause) : Bool :=
  C.size == D.size &&
    (pairInPlace D.literals C.literals
      ⟨List.replicate D.literals.length false, ⟨⟨[], []⟩, []⟩⟩).1

theorem isVariantInPlace_eq (C D : Clause) : C.isVariantInPlace D = C.isVariant D := by
  have hsound : PairingState.Sound D.literals
      ⟨List.replicate D.literals.length false, ⟨⟨[], []⟩, []⟩⟩ :=
    ⟨List.length_replicate, .empty⟩
  rw [isVariantInPlace, isVariant, (pairInPlace_spec D.nodup C.literals hsound).left,
    unflagged_replicate]

end Clause

end ClauseInduction
