import ClauseInduction.Proofs.Learner.Run

/-!
# Calls that fail

A call fails on a clash alone: a predicate that the hypothesis and the sample use with the same sign
and with different arities.  The first clash is reported, and of the learner only the supply of
names may change.  Training stops at the first sample whose call fails.
-/

namespace ClauseInduction

def Literal.Clashes (l m : Literal) : Prop :=
  l.Comparable m ∧ l.arity ≠ m.arity

instance (l m : Literal) : Decidable (l.Clashes m) :=
  inferInstanceAs (Decidable (_ ∧ _))

namespace Clause

/-!
# The first clash of two clauses
-/

/-- The literals clash; no earlier literal of `A` clashes with any of `B`, nor does `l` with an
earlier one of `B`. -/
structure FirstClash (A B : Clause) (l m : Literal) : Prop where
  clashes : l.Clashes m
  left : ∃ before after, A.literals = before ++ l :: after ∧ ∀ k ∈ before, ∀ n ∈ B, ¬ k.Clashes n
  right : ∃ before after, B.literals = before ++ m :: after ∧ ∀ n ∈ before, ¬ l.Clashes n

theorem FirstClash.mem {A B : Clause} {l m : Literal} (h : A.FirstClash B l m) :
    l ∈ A ∧ m ∈ B := by
  rcases h.left with ⟨before, after, hA, -⟩
  rcases h.right with ⟨before', after', hB, -⟩
  constructor
  · rw [mem_def, hA]
    simp
  · rw [mem_def, hB]
    simp

theorem find?_comparablePairs (A B : Clause) :
    (comparablePairs A B).find? (fun pair => pair.1.arity ≠ pair.2.arity) =
      A.literals.findSome? fun l =>
        (B.literals.find? fun m => l.Clashes m).map fun m => (l, m) := by
  rw [comparablePairs, List.find?_flatMap]
  congr 1
  funext l
  rw [List.find?_map, List.find?_filter]
  congr 2
  funext m
  rw [Bool.eq_iff_iff]
  simp only [Function.comp_apply, decide_eq_true_eq]
  rfl

theorem find?_comparablePairs_eq_some_iff {A B : Clause} {l m : Literal} :
    (comparablePairs A B).find? (fun pair => pair.1.arity ≠ pair.2.arity) = some (l, m) ↔
      A.FirstClash B l m := by
  have hfind : ∀ k : Literal,
      (B.literals.find? fun n => k.Clashes n) = none ↔ ∀ n ∈ B, ¬ k.Clashes n := by
    intro k
    simp [mem_def]
  rw [find?_comparablePairs, List.findSome?_eq_some_iff]
  simp only [Option.map_eq_some_iff, Option.map_eq_none_iff, Prod.mk.injEq, hfind,
    List.find?_eq_some_iff_append, decide_eq_true_eq]
  constructor
  · intro h
    rcases h with
      ⟨before, k, after, hA, ⟨n, ⟨hclash, before', after', hB, hright⟩, rfl, rfl⟩, hleft⟩
    refine ⟨hclash, ⟨before, after, hA, hleft⟩, ⟨before', after', hB, ?_⟩⟩
    intro n hn
    simpa using hright n hn
  · intro h
    rcases h with ⟨hclash, ⟨before, after, hA, hleft⟩, ⟨before', after', hB, hright⟩⟩
    refine ⟨before, l, after, hA, ⟨m, ⟨hclash, before', after', hB, ?_⟩, rfl, rfl⟩, hleft⟩
    intro n hn
    simpa using hright n hn

theorem exists_firstClash_iff {A B : Clause} :
    (∃ l m, A.FirstClash B l m) ↔ ∃ l ∈ A, ∃ m ∈ B, l.Clashes m := by
  constructor
  · intro h
    rcases h with ⟨l, m, h⟩
    exact ⟨l, h.mem.left, m, h.mem.right, h.clashes⟩
  · intro h
    rcases h with ⟨l, hl, m, hm, hlm, harity⟩
    have hfound : ((comparablePairs A B).find?
        (fun pair => pair.1.arity ≠ pair.2.arity)).isSome = true := by
      rw [List.find?_isSome]
      exact ⟨(l, m), mem_comparablePairs.mpr ⟨hl, hm, hlm⟩, by simpa using harity⟩
    rcases Option.isSome_iff_exists.mp hfound with ⟨⟨k, n⟩, hpair⟩
    exact ⟨k, n, find?_comparablePairs_eq_some_iff.mp hpair⟩

theorem generalizePairs_eq_error_iff {rule : AncestorRule} {reserved : List String}
    {pairs : List (Literal × Literal)} {G : Clause} {p : PairTable} {e : ArityClash} :
    (generalizePairs rule reserved pairs G p).1 = .error e ↔
      ∃ pair, pairs.find? (fun pair => pair.1.arity ≠ pair.2.arity) = some pair ∧
        e = ⟨pair.1.predicate, pair.1.arity, pair.2.arity⟩ := by
  induction pairs generalizing G p with
  | nil => simp [generalizePairs]
  | cons pair pairs ih =>
      rcases pair with ⟨l, m⟩
      rw [generalizePairs, List.find?_cons]
      by_cases hlm : l.arity = m.arity
      · rw [if_pos hlm]
        simpa [hlm] using ih
      · rw [if_neg hlm]
        simp [hlm, eq_comm]

theorem generalize_eq_error_iff {rule : AncestorRule} {A B : Clause} {supply : NameSupply}
    {e : ArityClash} :
    (A.generalize rule B supply).1 = .error e ↔
      ∃ l m, A.FirstClash B l m ∧ e = ⟨l.predicate, l.arity, m.arity⟩ := by
  have hpairs : (A.generalize rule B supply).1 =
      (generalizePairs rule (A.vars ++ B.vars) (comparablePairs A B) ∅ (.ofSupply supply)).1 := rfl
  rw [hpairs, generalizePairs_eq_error_iff]
  simp only [Prod.exists, find?_comparablePairs_eq_some_iff]

end Clause

namespace Learner

/-!
# One call
-/

theorem see_eq_error_iff {L : Learner} {C : Clause} {positive reduce : Bool} {e : ArityClash} :
    (L.see C positive reduce).1 = .error e ↔
      positive = true ∧ ∃ H, L.hypothesis = some H ∧ L.covers H C = false ∧
        ∃ l m, H.FirstClash C l m ∧ e = ⟨l.predicate, l.arity, m.arity⟩ := by
  constructor
  · intro h
    rcases hsee : L.see C positive reduce with ⟨result, M⟩
    rw [hsee] at h
    cases seen_of_see_eq hsee with
    | ignored => cases h
    | adopted hnone => cases h
    | covered hsome hcovers => cases h
    | @failed H e' supply hsome hcovers hgen =>
        cases h
        exact ⟨rfl, H, hsome, hcovers,
          Clause.generalize_eq_error_iff.mp (congrArg Prod.fst hgen)⟩
    | generalized hsome hcovers hgen => cases h
  · intro h
    rcases h with ⟨rfl, H, hsome, hcovers, hclash⟩
    have hgen : (H.generalize (Taxonomy.rule L.taxonomy) C L.supply).1 = .error e :=
      Clause.generalize_eq_error_iff.mpr hclash
    rw [see_eq_of_seen (.failed hsome hcovers (Prod.ext hgen rfl))]

theorem Seen.eq_of_error {L M : Learner} {C : Clause} {positive reduce : Bool} {e : ArityClash}
    (hseen : L.Seen C reduce positive (.error e) M) : M = { L with supply := M.supply } := by
  cases hseen with
  | failed hsome hcovers hgen => rfl

/-!
# Training
-/

/-- The learner after it has observed all samples, whatever the calls returned. -/
def observeAll (L : Learner) (samples : List Sample) : Learner :=
  samples.foldl (fun M s => (M.observe s).2) L

def stages : Learner → List Sample → List (Learner × Sample)
  | _, [] => []
  | L, s :: samples => (L, s) :: stages (L.observe s).2 samples

/-- Training on `samples` goes by the first `n` of them: it does the same with any others after
them, or with none. -/
def TrainsOnFirst (L : Learner) (samples : List Sample) (n : Nat) : Prop :=
  ∀ samples', samples'.take n = samples.take n → L.train samples' = L.train samples

def ObservesAll (L : Learner) (samples : List Sample) : Prop :=
  ∀ stage ∈ L.stages samples, ∃ outcome, (stage.1.observe stage.2).1 = .ok outcome

theorem observesAll_nil (L : Learner) : L.ObservesAll [] :=
  nofun

theorem observesAll_cons {L : Learner} {s : Sample} {samples : List Sample} :
    L.ObservesAll (s :: samples) ↔
      (∃ outcome, (L.observe s).1 = .ok outcome) ∧ (L.observe s).2.ObservesAll samples := by
  rw [ObservesAll, stages, List.forall_mem_cons]
  rfl

theorem ObservesAll.of_append {L : Learner} {before after : List Sample}
    (h : L.ObservesAll (before ++ after)) : L.ObservesAll before := by
  induction before generalizing L with
  | nil => exact observesAll_nil L
  | cons s before ih =>
      rcases observesAll_cons.mp h with ⟨hs, hrest⟩
      exact observesAll_cons.mpr ⟨hs, ih hrest⟩

/-- The samples before `s` are observed without a fault, and the one for `s` leaves `M`. -/
structure FailsAt (L : Learner) (before : List Sample) (s : Sample) (e : ArityClash)
    (M : Learner) : Prop where
  observes : L.ObservesAll before
  fails : (L.observeAll before).observe s = (.error e, M)

theorem FailsAt.of_cons {L M : Learner} {t s : Sample} {before : List Sample} {e : ArityClash}
    (h : L.FailsAt (t :: before) s e M) :
    ∃ outcome K, L.observe t = (.ok outcome, K) ∧ K.FailsAt before s e M := by
  rcases observesAll_cons.mp h.observes with ⟨⟨outcome, hok⟩, hbefore⟩
  exact ⟨outcome, (L.observe t).2, Prod.ext hok rfl, hbefore, h.fails⟩

theorem train_of_failsAt {L M : Learner} {before : List Sample} {s : Sample} {e : ArityClash}
    (h : L.FailsAt before s e M) (after : List Sample) :
    L.train (before ++ s :: after) = (.error ⟨before.length, e⟩, M) := by
  induction before generalizing L with
  | nil =>
      have hfails : L.observe s = (.error e, M) := h.fails
      simp only [List.nil_append, train, hfails, List.length_nil]
  | cons t before ih =>
      rcases h.of_cons with ⟨outcome, K, ht, hrest⟩
      simp only [List.cons_append, train, ht, ih hrest, List.length_cons]

theorem train_of_observesAll {L : Learner} {samples : List Sample} (h : L.ObservesAll samples) :
    ∃ outcomes, L.train samples = (.ok outcomes, L.observeAll samples) := by
  induction samples generalizing L with
  | nil => exact ⟨[], rfl⟩
  | cons s samples ih =>
      rcases observesAll_cons.mp h with ⟨⟨outcome, hok⟩, hrest⟩
      rcases ih hrest with ⟨outcomes, htrain⟩
      have hs : L.observe s = (.ok outcome, (L.observe s).2) := Prod.ext hok rfl
      refine ⟨outcome :: outcomes, ?_⟩
      rw [train, hs]
      simp only [htrain]
      rfl

theorem exists_of_train_cons {L M : Learner} {s : Sample} {samples : List Sample}
    {outcomes : List Outcome} (h : L.train (s :: samples) = (.ok outcomes, M)) :
    ∃ outcome rest, outcomes = outcome :: rest ∧ (L.observe s).1 = .ok outcome ∧
      (L.observe s).2.train samples = (.ok rest, M) := by
  rw [train] at h
  rcases hs : L.observe s with ⟨e | outcome, K⟩
  · rw [hs] at h
    cases h
  · rcases htrain : K.train samples with ⟨fault | rest, N⟩
    · simp only [hs, htrain] at h
      cases h
    · simp only [hs, htrain] at h
      cases h
      exact ⟨outcome, rest, rfl, rfl, rfl⟩

/-- The sample that fails is looked at, since without it training succeeds, and no later one is. -/
theorem trainsOnFirst_iff_of_failsAt {L M : Learner} {before : List Sample} {s : Sample}
    {e : ArityClash} (h : L.FailsAt before s e M) (after : List Sample) (n : Nat) :
    L.TrainsOnFirst (before ++ s :: after) n ↔ before.length < n := by
  constructor
  · intro hfirst
    by_contra hlen
    have htake : (before ++ s :: after).take n = before.take n :=
      List.take_append_of_le_length (Nat.le_of_not_lt hlen)
    have hsame : L.train (before.take n) = L.train (before ++ s :: after) :=
      hfirst (before.take n) (by rw [htake, List.take_take, Nat.min_self])
    have hobserved : L.ObservesAll (before.take n) :=
      ObservesAll.of_append (by rw [List.take_append_drop]; exact h.observes)
    rcases train_of_observesAll hobserved with ⟨outcomes, hok⟩
    rw [train_of_failsAt h after, hok] at hsame
    cases hsame
  · intro hlen samples' htake
    have hprefix : before ++ [s] <+: samples' := by
      have hle : (before ++ [s]).length ≤ n := by
        rw [List.length_append, List.length_singleton]
        exact hlen
      have happend : before ++ [s] <+: before ++ s :: after := ⟨after, (List.append_cons ..).symm⟩
      have hpart := List.prefix_take_iff.mpr ⟨happend, hle⟩
      exact (htake ▸ hpart).trans (List.take_prefix n samples')
    rcases hprefix with ⟨after', rfl⟩
    rw [List.append_assoc, List.singleton_append, train_of_failsAt h after',
      train_of_failsAt h after]

theorem observesAll_or_failsAt (L : Learner) (samples : List Sample) :
    L.ObservesAll samples ∨ ∃ before s after e M, samples = before ++ s :: after ∧
      L.FailsAt before s e M := by
  induction samples generalizing L with
  | nil => exact Or.inl (observesAll_nil L)
  | cons s samples ih =>
      rcases hs : L.observe s with ⟨e | outcome, K⟩
      · exact Or.inr ⟨[], s, samples, e, K, rfl, observesAll_nil L, hs⟩
      · have hok : (L.observe s).1 = .ok outcome := congrArg Prod.fst hs
        have hK : (L.observe s).2 = K := congrArg Prod.snd hs
        rcases ih K with hall | ⟨before, t, after, e, M, rfl, hfails⟩
        · exact Or.inl (observesAll_cons.mpr ⟨⟨outcome, hok⟩, hK ▸ hall⟩)
        · refine Or.inr ⟨s :: before, t, after, e, M, rfl, ?_, ?_⟩
          · exact observesAll_cons.mpr ⟨⟨outcome, hok⟩, hK ▸ hfails.observes⟩
          · rw [observeAll, List.foldl_cons, hK]
            exact hfails.fails

theorem eq_observeAll_of_train {L M : Learner} {samples : List Sample} {outcomes : List Outcome}
    (h : L.train samples = (.ok outcomes, M)) : M = L.observeAll samples := by
  rcases L.observesAll_or_failsAt samples with hall | ⟨before, s, after, e, K, rfl, hfails⟩
  · rcases train_of_observesAll hall with ⟨outcomes', hok⟩
    rw [hok] at h
    cases h
    rfl
  · rw [train_of_failsAt hfails after] at h
    cases h

theorem train_eq_error_iff {L M : Learner} {samples : List Sample} {fault : TrainingFault} :
    L.train samples = (.error fault, M) ↔
      ∃ before s after, samples = before ++ s :: after ∧ fault.position = before.length ∧
        L.FailsAt before s fault.clash M := by
  constructor
  · intro h
    rcases L.observesAll_or_failsAt samples with hall | ⟨before, s, after, e, K, rfl, hfails⟩
    · rcases train_of_observesAll hall with ⟨outcomes, hok⟩
      rw [hok] at h
      cases h
    · rw [train_of_failsAt hfails after] at h
      cases h
      exact ⟨before, s, after, rfl, rfl, hfails⟩
  · intro h
    rcases h with ⟨before, s, after, rfl, hposition, hfails⟩
    rw [train_of_failsAt hfails after, ← hposition]

theorem train_fails_iff {L : Learner} {samples : List Sample} :
    (∃ fault, (L.train samples).1 = .error fault) ↔ ¬ L.ObservesAll samples := by
  constructor
  · intro h hall
    rcases h with ⟨fault, hfault⟩
    rcases train_of_observesAll hall with ⟨outcomes, hok⟩
    rw [hok] at hfault
    cases hfault
  · intro h
    rcases (L.observesAll_or_failsAt samples).resolve_left h with
      ⟨before, s, after, e, M, rfl, hfails⟩
    exact ⟨_, congrArg Prod.fst (train_of_failsAt hfails after)⟩

/-- A call fails on the first clash and on nothing else, and only the supply of names shows it
afterwards.  Training stops at the first sample whose call fails: it leaves the hypothesis that
training on the samples before it leads to, and what it does is decided by the samples up to that
one and not by fewer. -/
theorem error_iff_clash (L : Learner) :
    (∀ C positive reduce, (∃ e, (L.see C positive reduce).1 = .error e) ↔
      positive = true ∧ ∃ H, L.hypothesis = some H ∧ L.covers H C = false ∧
        ∃ l ∈ H, ∃ m ∈ C, l.Clashes m) ∧
    (∀ C positive reduce e M, L.see C positive reduce = (.error e, M) →
      (∃ H l m, L.hypothesis = some H ∧ H.FirstClash C l m ∧
        e = ⟨l.predicate, l.arity, m.arity⟩) ∧
      M.hypothesis = L.hypothesis ∧ M.config = L.config ∧ M.taxonomy = L.taxonomy) ∧
    (∀ samples, (∃ fault, (L.train samples).1 = .error fault) ↔
      ∃ stage ∈ L.stages samples, ∃ e, (stage.1.observe stage.2).1 = .error e) ∧
    ∀ samples fault M, L.train samples = (.error fault, M) →
      ∃ before s after, samples = before ++ s :: after ∧ fault.position = before.length ∧
        L.FailsAt before s fault.clash M ∧
        (∃ outcomes, L.train before = (.ok outcomes, L.observeAll before)) ∧
        M.hypothesis = (L.observeAll before).hypothesis ∧
        (∀ n, L.TrainsOnFirst samples n ↔ fault.position < n) ∧
        ∀ after', L.train (before ++ s :: after') = (.error fault, M) := by
  refine ⟨?_, ?_, ?_, ?_⟩
  · intro C positive reduce
    constructor
    · intro h
      rcases h with ⟨e, he⟩
      rcases see_eq_error_iff.mp he with ⟨hpositive, H, hsome, hcovers, l, m, hclash, -⟩
      exact ⟨hpositive, H, hsome, hcovers, Clause.exists_firstClash_iff.mp ⟨l, m, hclash⟩⟩
    · intro h
      rcases h with ⟨hpositive, H, hsome, hcovers, hclash⟩
      rcases Clause.exists_firstClash_iff.mpr hclash with ⟨l, m, hfirst⟩
      exact ⟨_, see_eq_error_iff.mpr ⟨hpositive, H, hsome, hcovers, l, m, hfirst, rfl⟩⟩
  · intro C positive reduce e M hsee
    rcases see_eq_error_iff.mp (congrArg Prod.fst hsee) with ⟨-, H, hsome, -, l, m, hfirst, he⟩
    refine ⟨⟨H, l, m, hsome, hfirst, he⟩, ?_⟩
    rw [(seen_of_see_eq hsee).eq_of_error]
    exact ⟨rfl, rfl, rfl⟩
  · intro samples
    rw [train_fails_iff, ObservesAll, not_forall]
    simp only [Classical.not_imp, not_exists]
    apply exists_congr
    intro stage
    apply and_congr_right
    intro _
    cases (stage.1.observe stage.2).1 with
    | error e => simp
    | ok outcome => simp
  · intro samples fault M htrain
    rcases train_eq_error_iff.mp htrain with ⟨before, s, after, rfl, hposition, hfails⟩
    refine ⟨before, s, after, rfl, hposition, hfails, train_of_observesAll hfails.observes,
      ?_, ?_, ?_⟩
    · rw [(seen_of_see_eq hfails.fails).eq_of_error]
    · intro n
      rw [hposition, trainsOnFirst_iff_of_failsAt hfails after]
    · intro after'
      rw [train_of_failsAt hfails after', ← hposition]

def clashSamples : List Sample :=
  [⟨.ofList [⟨true, "p", [.const "a"]⟩, ⟨true, "q", [.const "a", .const "b"]⟩], true⟩,
    ⟨.ofList [⟨true, "p", [.const "b", .const "c"]⟩], false⟩,
    ⟨.ofList [⟨true, "p", [.const "c"]⟩, ⟨true, "q", [.const "c"]⟩, ⟨true, "q", []⟩], true⟩,
    ⟨.ofList [⟨true, "p", []⟩], true⟩]

theorem train_clashSamples :
    (∃ M, (new none).train clashSamples = (.error ⟨2, "q", 2, 1⟩, M) ∧
      M.hypothesis = ((new none).observeAll (clashSamples.take 2)).hypothesis ∧
      (new none).TrainsOnFirst clashSamples 3 ∧ ¬ (new none).TrainsOnFirst clashSamples 2) ∧
    (∃ e M, ((ofTest fun _ _ => false).observeAll (clashSamples.take 2)).see
        (.ofList [⟨true, "p", [.const "a"]⟩, ⟨true, "q", [.const "a"]⟩]) true true = (.error e, M) ∧
      M.hypothesis =
        ((ofTest fun _ _ => false).observeAll (clashSamples.take 2)).hypothesis) := by
  constructor
  · rcases htrain : (new none).train clashSamples with ⟨result, M⟩
    have hresult : ((new none).train clashSamples).1 = .error ⟨2, "q", 2, 1⟩ := by decide
    rw [htrain] at hresult
    cases hresult
    rcases (error_iff_clash (new none)).right.right.right _ _ M htrain with
      ⟨before, s, after, hsamples, hposition, -, -, hhypothesis, hfirst, -⟩
    have hbefore : clashSamples.take 2 = before := hsamples ▸ List.take_left' hposition.symm
    rw [hbefore]
    exact ⟨M, rfl, hhypothesis, (hfirst 3).mpr (by decide),
      fun h => absurd ((hfirst 2).mp h) (by decide)⟩
  · rcases ((error_iff_clash ((ofTest fun _ _ => false).observeAll (clashSamples.take 2))).left
      (.ofList [⟨true, "p", [.const "a"]⟩, ⟨true, "q", [.const "a"]⟩]) true true).mpr
      ⟨rfl, _, rfl, rfl, ⟨true, "q", [.const "a", .const "b"]⟩, by decide,
        ⟨true, "q", [.const "a"]⟩, by decide, by decide⟩ with ⟨e, he⟩
    rcases (error_iff_clash _).right.left _ _ _ e _ (Prod.ext he rfl) with ⟨-, hhypothesis, -, -⟩
    exact ⟨e, _, Prod.ext he rfl, hhypothesis⟩

end Learner
end ClauseInduction
