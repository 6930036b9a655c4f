import ClauseInduction.Proofs.Generalization.Combination
import ClauseInduction.Proofs.NameSupply

/-!
# The table of pairs

Generalization threads a table of pairs of terms.  Entries are never changed, so the terms that
are read off the final table are those that were used on the way, and a generalization is the
combination under the final table.  Two invariants of the table say which terms its entries hold:
what a pair decides on its own, and variables of their own for all other pairs.
-/

namespace ClauseInduction

namespace PairTable

/-- The term that a pair decides on its own; none if the pair needs a new variable. -/
def settled? (rule : AncestorRule) (s t : Term) : Option Term :=
  if s = t then some s
  else
    match s, t with
    | .const a, .const b => (rule a b).map .const
    | .var x, .const _ => some (.var x)
    | .const _, .var y => some (.var y)
    | _, _ => none

/-- What a pair decides: a term paired with itself stays, two constants with an ancestor become it,
and a variable absorbs a constant on either side. -/
inductive Decides (rule : AncestorRule) : Term → Term → Term → Prop where
  | same (t : Term) : Decides rule t t t
  | ancestor {a b c : String} (hab : a ≠ b) (hrule : rule a b = some c) :
      Decides rule (.const a) (.const b) (.const c)
  | left (x c : String) : Decides rule (.var x) (.const c) (.var x)
  | right (c x : String) : Decides rule (.const c) (.var x) (.var x)

theorem settled?_eq_some_iff {rule : AncestorRule} {s t u : Term} :
    settled? rule s t = some u ↔ Decides rule s t u := by
  constructor
  · intro h
    unfold settled? at h
    by_cases hst : s = t
    · rw [if_pos hst] at h
      cases hst
      cases h
      exact .same s
    · rw [if_neg hst] at h
      cases s with
      | var x =>
          cases t with
          | const d =>
              cases h
              exact .left x d
          | var y => cases h
          | app g ts => cases h
      | const a =>
          cases t with
          | const b =>
              rcases Option.map_eq_some_iff.mp h with ⟨c, hc, rfl⟩
              exact .ancestor (fun hab => hst (congrArg Term.const hab)) hc
          | var y =>
              cases h
              exact .right a y
          | app g ts => cases h
      | app f ss => cases t <;> cases h
  · intro h
    cases h with
    | same => exact if_pos rfl
    | ancestor hab hrule =>
        rw [settled?, if_neg (fun heq => hab (Term.const.inj heq))]
        exact congrArg (Option.map Term.const) hrule
    | left x c => rfl
    | right c x => rfl

theorem settled?_self (rule : AncestorRule) (t : Term) : settled? rule t t = some t :=
  settled?_eq_some_iff.mpr (.same t)

theorem choose_eq_of_settled {rule : AncestorRule} {s t u : Term}
    (h : settled? rule s t = some u) (reserved : List String) (p : PairTable) :
    p.choose rule reserved s t = (u, p) := by
  cases settled?_eq_some_iff.mp h with
  | same => exact if_pos rfl
  | ancestor hab hrule =>
      rw [choose, if_neg (fun heq => hab (Term.const.inj heq))]
      simp only [hrule]
  | left x c => rfl
  | right c x => rfl

theorem choose_eq_of_not_settled {rule : AncestorRule} {s t : Term}
    (h : settled? rule s t = none) (reserved : List String) (p : PairTable) :
    p.choose rule reserved s t = p.mint reserved := by
  unfold settled? at h
  unfold choose
  by_cases hst : s = t
  · rw [if_pos hst] at h
    cases h
  · rw [if_neg hst] at h ⊢
    cases s with
    | var x =>
        cases t with
        | const d => cases h
        | var y => rfl
        | app g ts => rfl
    | const a =>
        cases t with
        | const b =>
            have hrule : rule a b = none := Option.map_eq_none_iff.mp h
            simp only [hrule]
        | var y => cases h
        | app g ts => rfl
    | app f ss => cases t <;> rfl

/-!
# One step
-/

def Grows (p q : PairTable) : Prop :=
  ∀ s t u, p.chosen.lookup (s, t) = some u → q.chosen.lookup (s, t) = some u

theorem Grows.refl (p : PairTable) : p.Grows p :=
  fun _ _ _ h => h

theorem Grows.trans {p q r : PairTable} (hpq : p.Grows q) (hqr : q.Grows r) : p.Grows r :=
  fun s t u h => hqr s t u (hpq s t u h)

theorem lookup_record (s t u : Term) (p : PairTable) (a b : Term) :
    (p.record s t u).chosen.lookup (a, b) =
      if (a, b) = (s, t) then some u else p.chosen.lookup (a, b) := by
  rw [record, List.lookup_cons]
  by_cases h : (a, b) = (s, t)
  · rw [if_pos h, h, beq_self_eq_true]
  · rw [if_neg h, beq_false_of_ne h]

/-- The three ways in which a pair is resolved: the table holds it, it decides its term, or it
gets the next name that is not reserved. -/
theorem resolve_cases (rule : AncestorRule) (reserved : List String) (s t : Term)
    (p : PairTable) :
    (∃ u, p.chosen.lookup (s, t) = some u ∧ p.resolve rule reserved s t = (u, p)) ∨
    (∃ u, p.chosen.lookup (s, t) = none ∧ settled? rule s t = some u ∧
      p.resolve rule reserved s t = (u, p.record s t u)) ∨
    (∃ c, p.chosen.lookup (s, t) = none ∧ settled? rule s t = none ∧ p.supply.count ≤ c ∧
      (c < p.supply.count + NameSupply.period → p.supply.nameAt c ∉ reserved) ∧
      p.resolve rule reserved s t =
        (.var (p.supply.nameAt c),
          record s t (.var (p.supply.nameAt c))
            { p with supply := { p.supply with count := c + 1 } })) := by
  unfold resolve
  cases hlookup : p.chosen.lookup (s, t) with
  | some u => exact Or.inl ⟨u, rfl, rfl⟩
  | none =>
      apply Or.inr
      cases hsettled : settled? rule s t with
      | some u =>
          rw [choose_eq_of_settled hsettled]
          exact Or.inl ⟨u, rfl, rfl, rfl⟩
      | none =>
          apply Or.inr
          rcases NameSupply.fresh_spec reserved p.supply with ⟨c, hc, hfresh, -, hreserved⟩
          refine ⟨c, rfl, rfl, hc, hreserved, ?_⟩
          rw [choose_eq_of_not_settled hsettled]
          simp only [mint, hfresh]

theorem lookup_resolve (rule : AncestorRule) (reserved : List String) (s t : Term)
    (p : PairTable) :
    (p.resolve rule reserved s t).2.chosen.lookup (s, t) =
      some (p.resolve rule reserved s t).1 := by
  rcases resolve_cases rule reserved s t p with ⟨u, hlookup, h⟩ | ⟨u, -, -, h⟩ | ⟨c, -, -, -, -, h⟩
  · rw [h]
    exact hlookup
  · rw [h]
    exact (lookup_record s t u p s t).trans (if_pos rfl)
  · rw [h]
    exact (lookup_record s t _ _ s t).trans (if_pos rfl)

theorem grows_record {s t : Term} {p : PairTable} (h : p.chosen.lookup (s, t) = none) (u : Term) :
    p.Grows (p.record s t u) := by
  intro a b v hv
  rw [lookup_record, if_neg]
  · exact hv
  · intro hab
    rw [hab, h] at hv
    cases hv

theorem grows_resolve (rule : AncestorRule) (reserved : List String) (s t : Term)
    (p : PairTable) : p.Grows (p.resolve rule reserved s t).2 := by
  rcases resolve_cases rule reserved s t p with
    ⟨u, -, h⟩ | ⟨u, hlookup, -, h⟩ | ⟨c, hlookup, -, -, -, h⟩
  · rw [h]
    exact Grows.refl p
  · rw [h]
    exact grows_record hlookup u
  · rw [h]
    exact grows_record
      (p := { p with supply := { p.supply with count := c + 1 } }) hlookup _

/-!
# The invariants
-/

def EveryEntry (Q : Term → Term → Term → Prop) (p : PairTable) : Prop :=
  ∀ s t u, p.chosen.lookup (s, t) = some u → Q s t u

def Settles (rule : AncestorRule) (p : PairTable) : Prop :=
  ∀ s t u v, p.chosen.lookup (s, t) = some u → settled? rule s t = some v → u = v

theorem settles_iff {rule : AncestorRule} {p : PairTable} :
    p.Settles rule ↔ p.EveryEntry fun s t u => ∀ v, settled? rule s t = some v → u = v :=
  ⟨fun h s t u hu v hv => h s t u v hu hv, fun h s t u v hu hv => h s t u hu v hv⟩

/-- As long as the names do not repeat, the other pairs stand for variables that are not reserved,
and different pairs for different ones. -/
structure Separates (rule : AncestorRule) (reserved : List String) (start : NameSupply)
    (p : PairTable) : Prop where
  stem_eq : p.supply.stem = start.stem
  count_le : start.count ≤ p.supply.count
  minted : p.supply.count ≤ start.count + NameSupply.period → ∀ s t u,
    p.chosen.lookup (s, t) = some u → settled? rule s t = none →
    ∃ c, start.count ≤ c ∧ c < p.supply.count ∧ u = .var (start.nameAt c) ∧
      start.nameAt c ∉ reserved
  apart : p.supply.count ≤ start.count + NameSupply.period → ∀ s t s' t' u,
    p.chosen.lookup (s, t) = some u → p.chosen.lookup (s', t') = some u →
    settled? rule s t = none → settled? rule s' t' = none → (s, t) = (s', t')

theorem everyEntry_ofSupply (Q : Term → Term → Term → Prop) (supply : NameSupply) :
    (ofSupply supply).EveryEntry Q :=
  nofun

theorem separates_ofSupply (rule : AncestorRule) (reserved : List String) (supply : NameSupply) :
    (ofSupply supply).Separates rule reserved supply :=
  ⟨rfl, Nat.le_refl _, nofun, nofun⟩

theorem EveryEntry.record {Q : Term → Term → Term → Prop} {p : PairTable} (h : p.EveryEntry Q)
    {s t u : Term} (hu : Q s t u) : (p.record s t u).EveryEntry Q := by
  intro a b v hv
  rw [lookup_record] at hv
  by_cases hab : (a, b) = (s, t)
  · rw [if_pos hab] at hv
    cases hab
    cases hv
    exact hu
  · rw [if_neg hab] at hv
    exact h a b v hv

theorem EveryEntry.resolve {rule : AncestorRule} {Q : Term → Term → Term → Prop} {p : PairTable}
    (h : p.EveryEntry Q) (hsettled : ∀ s t u, settled? rule s t = some u → Q s t u)
    (hminted : ∀ s t x, settled? rule s t = none → Q s t (.var x)) (reserved : List String)
    (s t : Term) : (p.resolve rule reserved s t).2.EveryEntry Q := by
  rcases resolve_cases rule reserved s t p with ⟨u, -, hr⟩ | ⟨u, -, hu, hr⟩ | ⟨c, -, hnone, -, -, hr⟩
  · rw [hr]
    exact h
  · rw [hr]
    exact h.record (hsettled s t u hu)
  · rw [hr]
    exact EveryEntry.record (p := { p with supply := { p.supply with count := c + 1 } }) h
      (hminted s t _ hnone)

theorem Separates.record_settled {rule : AncestorRule} {reserved : List String}
    {start : NameSupply} {p : PairTable} (h : p.Separates rule reserved start) {s t u : Term}
    (hsettled : settled? rule s t = some u) :
    (p.record s t u).Separates rule reserved start := by
  have hold : ∀ a b v, (p.record s t u).chosen.lookup (a, b) = some v →
      settled? rule a b = none → p.chosen.lookup (a, b) = some v := by
    intro a b v hv hab
    rw [lookup_record, if_neg] at hv
    · exact hv
    · intro heq
      cases heq
      rw [hsettled] at hab
      cases hab
  refine ⟨h.stem_eq, h.count_le, ?_, ?_⟩
  · intro hbound a b v hv hab
    exact h.minted hbound a b v (hold a b v hv hab) hab
  · intro hbound a b a' b' v hv hv' hab hab'
    exact h.apart hbound a b a' b' v (hold a b v hv hab) (hold a' b' v hv' hab') hab hab'

/-- A new variable comes from a count that no earlier entry has drawn. -/
theorem Separates.record_minted {rule : AncestorRule} {reserved : List String}
    {start : NameSupply} {p : PairTable} (h : p.Separates rule reserved start) {s t : Term}
    {c : Nat} (hc : p.supply.count ≤ c)
    (hreserved : c < p.supply.count + NameSupply.period → p.supply.nameAt c ∉ reserved) :
    (PairTable.record s t (.var (p.supply.nameAt c))
      { p with supply := { p.supply with count := c + 1 } }).Separates rule reserved start := by
  have hle := h.count_le
  rw [NameSupply.nameAt_congr h.stem_eq] at hreserved ⊢
  let q : PairTable := PairTable.record s t (.var (start.nameAt c))
      { p with supply := { p.supply with count := c + 1 } }
  have hlookup : ∀ a b, q.chosen.lookup (a, b) =
      if (a, b) = (s, t) then some (.var (start.nameAt c)) else p.chosen.lookup (a, b) :=
    fun a b => lookup_record s t _ _ a b
  -- an entry that was there before has a smaller count, hence another name
  have hfresh : c + 1 ≤ start.count + NameSupply.period → ∀ a b,
      p.chosen.lookup (a, b) = some (.var (start.nameAt c)) → settled? rule a b ≠ none := by
    intro hbound a b hab hnone
    rcases h.minted (by omega) a b _ hab hnone with ⟨d, hd, hdp, hname', -⟩
    have hcd : c = d :=
      NameSupply.eq_of_nameAt_eq start.count (by omega) (by omega) hd (by omega)
        (Term.var.inj hname')
    omega
  refine ⟨h.stem_eq, Nat.le_succ_of_le (Nat.le_trans hle hc), ?_, ?_⟩
  · intro hbound a b v hv hab
    change c + 1 ≤ _ at hbound
    change q.chosen.lookup (a, b) = some v at hv
    rw [hlookup] at hv
    by_cases heq : (a, b) = (s, t)
    · rw [if_pos heq] at hv
      refine ⟨c, Nat.le_trans hle hc, Nat.lt_succ_self c, (Option.some.inj hv).symm, ?_⟩
      exact hreserved (by omega)
    · rw [if_neg heq] at hv
      rcases h.minted (by omega) a b v hv hab with ⟨d, hd, hdp, hrest⟩
      exact ⟨d, hd, Nat.lt_succ_of_lt (Nat.lt_of_lt_of_le hdp hc), hrest⟩
  · intro hbound a b a' b' v hv hv' hab hab'
    change c + 1 ≤ _ at hbound
    change q.chosen.lookup (a, b) = some v at hv
    change q.chosen.lookup (a', b') = some v at hv'
    rw [hlookup] at hv hv'
    by_cases heq : (a, b) = (s, t)
    · by_cases heq' : (a', b') = (s, t)
      · rw [heq, heq']
      · rw [if_pos heq] at hv
        rw [if_neg heq', ← Option.some.inj hv] at hv'
        exact absurd hab' (hfresh hbound a' b' hv')
    · by_cases heq' : (a', b') = (s, t)
      · rw [if_pos heq'] at hv'
        rw [if_neg heq, ← Option.some.inj hv'] at hv
        exact absurd hab (hfresh hbound a b hv)
      · rw [if_neg heq] at hv
        rw [if_neg heq'] at hv'
        exact h.apart (by omega) a b a' b' v hv hv' hab hab'

theorem Separates.resolve {rule : AncestorRule} {reserved : List String} {start : NameSupply}
    {p : PairTable} (h : p.Separates rule reserved start) (s t : Term) :
    (p.resolve rule reserved s t).2.Separates rule reserved start := by
  rcases resolve_cases rule reserved s t p with
    ⟨u, -, hr⟩ | ⟨u, -, hsettled, hr⟩ | ⟨c, -, -, hc, hreserved, hr⟩
  · rw [hr]
    exact h
  · rw [hr]
    exact h.record_settled hsettled
  · rw [hr]
    exact h.record_minted hc hreserved

/-!
# Runs of the table
-/

def resolveAll (rule : AncestorRule) (reserved : List String) :
    List (Term × Term) → PairTable → PairTable
  | [], p => p
  | (s, t) :: pairs, p => resolveAll rule reserved pairs (p.resolve rule reserved s t).2

theorem resolveAll_append (rule : AncestorRule) (reserved : List String)
    (pairs pairs' : List (Term × Term)) (p : PairTable) :
    resolveAll rule reserved (pairs ++ pairs') p =
      resolveAll rule reserved pairs' (resolveAll rule reserved pairs p) := by
  induction pairs generalizing p with
  | nil => rfl
  | cons pair pairs ih => exact ih _

theorem grows_resolveAll (rule : AncestorRule) (reserved : List String)
    (pairs : List (Term × Term)) (p : PairTable) :
    p.Grows (resolveAll rule reserved pairs p) := by
  induction pairs generalizing p with
  | nil => exact Grows.refl p
  | cons pair pairs ih => exact (grows_resolve rule reserved pair.1 pair.2 p).trans (ih _)

theorem exists_lookup_resolveAll (rule : AncestorRule) (reserved : List String)
    {pairs : List (Term × Term)} {s t : Term} (h : (s, t) ∈ pairs) (p : PairTable) :
    ∃ u, (resolveAll rule reserved pairs p).chosen.lookup (s, t) = some u := by
  induction pairs generalizing p with
  | nil => cases h
  | cons pair pairs ih =>
      rcases List.mem_cons.mp h with rfl | htail
      · exact ⟨_, grows_resolveAll rule reserved pairs _ s t _ (lookup_resolve rule reserved s t p)⟩
      · exact ih htail _

theorem EveryEntry.resolveAll {Q : Term → Term → Term → Prop} {p : PairTable}
    (h : p.EveryEntry Q) (rule : AncestorRule)
    (hsettled : ∀ s t u, settled? rule s t = some u → Q s t u)
    (hminted : ∀ s t x, settled? rule s t = none → Q s t (.var x)) (reserved : List String)
    (pairs : List (Term × Term)) : (resolveAll rule reserved pairs p).EveryEntry Q := by
  induction pairs generalizing p with
  | nil => exact h
  | cons pair pairs ih => exact ih (h.resolve hsettled hminted reserved pair.1 pair.2)

theorem settles_resolveAll (rule : AncestorRule) (reserved : List String)
    (pairs : List (Term × Term)) (supply : NameSupply) :
    (resolveAll rule reserved pairs (ofSupply supply)).Settles rule := by
  refine settles_iff.mpr ((everyEntry_ofSupply _ supply).resolveAll rule ?_ ?_ reserved pairs)
  · intro s t u hu v hv
    exact Option.some.inj (hu.symm.trans hv)
  · intro s t x hnone v hv
    rw [hnone] at hv
    cases hv

theorem everyEntry_var_resolveAll (rule : AncestorRule) (reserved : List String)
    (pairs : List (Term × Term)) (supply : NameSupply) :
    (resolveAll rule reserved pairs (ofSupply supply)).EveryEntry fun s t u =>
      settled? rule s t = none → ∃ x, u = .var x := by
  refine (everyEntry_ofSupply _ supply).resolveAll rule ?_ ?_ reserved pairs
  · intro s t u hu hnone
    rw [hnone] at hu
    cases hu
  · intro s t x hnone hnone'
    exact ⟨x, rfl⟩

theorem Separates.resolveAll {rule : AncestorRule} {reserved : List String} {start : NameSupply}
    {p : PairTable} (h : p.Separates rule reserved start) (pairs : List (Term × Term)) :
    (resolveAll rule reserved pairs p).Separates rule reserved start := by
  induction pairs generalizing p with
  | nil => exact h
  | cons pair pairs ih => exact ih (h.resolve pair.1 pair.2)

/-- The term that the table holds for a pair; a pair without entry gets its first term. -/
def termOf (p : PairTable) (s t : Term) : Term :=
  (p.chosen.lookup (s, t)).getD s

theorem termOf_eq {p : PairTable} {s t u : Term} (h : p.chosen.lookup (s, t) = some u) :
    p.termOf s t = u := by
  rw [termOf, h]
  rfl

theorem Settles.termOf_self {rule : AncestorRule} {p : PairTable} (h : p.Settles rule) (t : Term) :
    p.termOf t t = t := by
  unfold termOf
  cases hlookup : p.chosen.lookup (t, t) with
  | none => rfl
  | some u => exact h t t u t hlookup (settled?_self rule t)

end PairTable

/-!
# Terms and literals
-/

namespace Term

open PairTable

theorem combine_termOf_of_grows {p q : PairTable} (hgrows : p.Grows q) {s t : Term}
    (h : ∀ pair ∈ aligned s t, ∃ u, p.chosen.lookup (pair.1, pair.2) = some u) :
    combine p.termOf s t = combine q.termOf s t := by
  apply combine_congr
  intro pair hpair
  rcases h pair hpair with ⟨u, hu⟩
  rw [termOf_eq hu, termOf_eq (hgrows _ _ _ hu)]

theorem generalizeList_eq {rule : AncestorRule} {reserved : List String} {ss ts : List Term}
    (ih : ∀ q ∈ ss.zip ts, ∀ p : PairTable, generalize rule reserved q.1 q.2 p =
      (combine (resolveAll rule reserved (aligned q.1 q.2) p).termOf q.1 q.2,
        resolveAll rule reserved (aligned q.1 q.2) p)) (p : PairTable) :
    generalizeList rule reserved ss ts p =
      (combineList (resolveAll rule reserved (alignedList ss ts) p).termOf ss ts,
        resolveAll rule reserved (alignedList ss ts) p) := by
  induction ss generalizing ts p with
  | nil => cases ts <;> rfl
  | cons s ss ihss =>
      cases ts with
      | nil => rfl
      | cons t ts =>
          have hhead := ih (s, t) (by simp) p
          have htail := ihss fun q hq => ih q (List.mem_cons_of_mem (s, t) hq)
          simp only at hhead
          simp only [generalizeList, alignedList, combineList, resolveAll_append, hhead, htail]
          congr 2
          apply combine_termOf_of_grows
          · exact grows_resolveAll rule reserved (alignedList ss ts) _
          · intro pair hpair
            exact exists_lookup_resolveAll rule reserved hpair p

/-- Generalization resolves the aligned pairs and combines under the table that results. -/
theorem generalize_eq (rule : AncestorRule) (reserved : List String) (s t : Term)
    (p : PairTable) : generalize rule reserved s t p =
      (combine (resolveAll rule reserved (aligned s t) p).termOf s t,
        resolveAll rule reserved (aligned s t) p) := by
  induction s, t using pairInduction generalizing p with
  | leaf s t hshape =>
      have hresolve : generalize rule reserved s t p = p.resolve rule reserved s t := by
        cases s with
        | var x => rfl
        | const c => rfl
        | app f ss =>
            cases t with
            | var y => rfl
            | const d => rfl
            | app g ts => rw [generalize, if_neg hshape]
      rw [hresolve, aligned_of_not_sameShape hshape, combine_of_not_sameShape hshape]
      unfold resolveAll resolveAll
      rw [termOf_eq (lookup_resolve rule reserved s t p)]
  | app f ss ts hlength ih =>
      rw [generalize, if_pos ⟨rfl, hlength⟩, generalizeList_eq ih, aligned_app hlength, combine,
        if_pos ⟨rfl, hlength⟩]

end Term

theorem Literal.generalizeList_args_eq (rule : AncestorRule) (reserved : List String)
    (l m : Literal) (p : PairTable) :
    Term.generalizeList rule reserved l.args m.args p =
      ((l.combine (p.resolveAll rule reserved (l.aligned m)).termOf m).args,
        p.resolveAll rule reserved (l.aligned m)) :=
  Term.generalizeList_eq (fun q _ => Term.generalize_eq rule reserved q.1 q.2) p

end ClauseInduction
