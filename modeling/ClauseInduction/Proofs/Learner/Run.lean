import ClauseInduction.Learner
import ClauseInduction.Proofs.Generalization.Bounds
import ClauseInduction.Proofs.Reduction

/-!
# Runs of a learner

A run feeds a learner with samples and may change its configuration in between.  All that a call
can do is listed once, so that facts about runs follow from one case analysis of a call.
-/

namespace ClauseInduction

namespace Learner

/-!
# Events
-/

inductive Event where
  | see (C : Clause) (positive reduce : Bool)
  | configure (config : LearnerConfig)

def Event.Shows (P : Clause → Prop) : Event → Prop
  | .see C _ _ => P C
  | .configure _ => True

instance (P : Clause → Prop) [DecidablePred P] : DecidablePred (Event.Shows P)
  | .see C _ _ => inferInstanceAs (Decidable (P C))
  | .configure _ => isTrue trivial

def step (L : Learner) : Event → Learner
  | .see C positive reduce => (L.see C positive reduce).2
  | .configure config => L.configure config

def run (L : Learner) (es : List Event) : Learner :=
  es.foldl step L

theorem run_append (L : Learner) (es fs : List Event) : L.run (es ++ fs) = (L.run es).run fs :=
  List.foldl_append

theorem run_concat (L : Learner) (es : List Event) (e : Event) :
    L.run (es ++ [e]) = (L.run es).step e :=
  run_append L es [e]

def trace : Learner → List Event → List (Except ArityClash Outcome × Option Clause)
  | _, [] => []
  | L, .see C positive reduce :: es =>
      ((L.see C positive reduce).1, (L.see C positive reduce).2.hypothesis) ::
        trace (L.see C positive reduce).2 es
  | L, .configure config :: es => trace (L.configure config) es

/-- Every call draws fewer names than there are. -/
def DrawsWithinPeriod : Learner → List Event → Prop
  | _, [] => True
  | L, .see C positive reduce :: es =>
      (L.see C positive reduce).2.supply.count < L.supply.count + NameSupply.period ∧
        DrawsWithinPeriod (L.see C positive reduce).2 es
  | L, .configure config :: es => DrawsWithinPeriod (L.configure config) es

theorem drawsWithinPeriod_append {L : Learner} {es fs : List Event} :
    L.DrawsWithinPeriod (es ++ fs) ↔
      L.DrawsWithinPeriod es ∧ (L.run es).DrawsWithinPeriod fs := by
  induction es generalizing L with
  | nil => exact (true_and _).symm.to_iff
  | cons e es ih =>
      cases e with
      | configure config => exact ih
      | see C positive reduce =>
          rw [List.cons_append, DrawsWithinPeriod, DrawsWithinPeriod, ih, and_assoc]
          rfl

theorem DrawsWithinPeriod.of_prefix {L : Learner} {es fs : List Event}
    (h : L.DrawsWithinPeriod fs) (hpart : es <+: fs) : L.DrawsWithinPeriod es := by
  rcases hpart with ⟨gs, rfl⟩
  exact (drawsWithinPeriod_append.mp h).left

instance decidableDrawsWithinPeriod :
    (es : List Event) → (L : Learner) → Decidable (L.DrawsWithinPeriod es)
  | [], _ => isTrue trivial
  | .see C positive reduce :: es, L =>
      have := decidableDrawsWithinPeriod es (L.see C positive reduce).2
      inferInstanceAs (Decidable (_ ∧ _))
  | .configure config :: es, L => decidableDrawsWithinPeriod es (L.configure config)

/-- The clause is a positive sample of the run, and the call that showed it succeeded. -/
def Accepted (L : Learner) (es : List Event) (C : Clause) : Prop :=
  ∃ before reduce after outcome, es = before ++ .see C true reduce :: after ∧
    ((L.run before).see C true reduce).1 = .ok outcome

theorem not_accepted_nil (L : Learner) (C : Clause) : ¬ L.Accepted [] C := by
  intro h
  rcases h with ⟨before, reduce, after, outcome, hes, -⟩
  simp at hes

theorem accepted_concat {L : Learner} {es : List Event} {e : Event} {C : Clause} :
    L.Accepted (es ++ [e]) C ↔ L.Accepted es C ∨
      ∃ reduce outcome, e = .see C true reduce ∧
        ((L.run es).see C true reduce).1 = .ok outcome := by
  constructor
  · intro h
    rcases h with ⟨before, reduce, after, outcome, hes, hok⟩
    -- the sample is the last event, or it lies in what comes before
    rcases List.eq_nil_or_concat after with rfl | ⟨after, f, rfl⟩
    · rcases List.append_inj' hes rfl with ⟨hbefore, he⟩
      cases he
      exact Or.inr ⟨reduce, outcome, rfl, hbefore ▸ hok⟩
    · have hes' : es ++ [e] = (before ++ .see C true reduce :: after) ++ [f] := by
        simpa using hes
      have hinit := (List.append_inj' hes' rfl).left
      exact Or.inl ⟨before, reduce, after, outcome, hinit, hok⟩
  · intro h
    rcases h with ⟨before, reduce, after, outcome, hes, hok⟩ | ⟨reduce, outcome, rfl, hok⟩
    · exact ⟨before, reduce, after ++ [e], outcome, by rw [hes]; simp, hok⟩
    · exact ⟨es, reduce, [], outcome, rfl, hok⟩

theorem Accepted.mem {L : Learner} {es : List Event} {C : Clause} (h : L.Accepted es C) :
    ∃ reduce, .see C true reduce ∈ es := by
  rcases h with ⟨before, reduce, after, outcome, rfl, -⟩
  exact ⟨reduce, by simp⟩

def Taken (L : Learner) (es : List Event) (C : Clause) : Prop :=
  L.hypothesis = some C ∨ L.Accepted es C

theorem taken_concat {L : Learner} {es : List Event} {e : Event} {C : Clause} :
    L.Taken (es ++ [e]) C ↔ L.Taken es C ∨
      ∃ reduce outcome, e = .see C true reduce ∧
        ((L.run es).see C true reduce).1 = .ok outcome := by
  unfold Taken
  rw [accepted_concat, or_assoc]

/-!
# What a call does
-/

/-- The result and the new state of a call, with what led to them. -/
inductive Seen (L : Learner) (C : Clause) (reduce : Bool) :
    Bool → Except ArityClash Outcome → Learner → Prop where
  | ignored : Seen L C reduce false (.ok .ignoredNegative) L
  | adopted (hnone : L.hypothesis = none) :
      Seen L C reduce true (.ok .adopted) { L with hypothesis := some C }
  | covered {H : Clause} (hsome : L.hypothesis = some H) (hcovers : L.covers H C = true) :
      Seen L C reduce true (.ok .covered) L
  | failed {H : Clause} {e : ArityClash} {supply : NameSupply} (hsome : L.hypothesis = some H)
      (hcovers : L.covers H C = false)
      (hgen : H.generalize (Taxonomy.rule L.taxonomy) C L.supply = (.error e, supply)) :
      Seen L C reduce true (.error e) { L with supply }
  | generalized {H G : Clause} {supply : NameSupply} (hsome : L.hypothesis = some H)
      (hcovers : L.covers H C = false)
      (hgen : H.generalize (Taxonomy.rule L.taxonomy) C L.supply = (.ok G, supply)) :
      Seen L C reduce true (.ok (.generalized (L.simplify reduce G).2))
        { L with supply, hypothesis := some (L.simplify reduce G).1 }

theorem seen_of_see_eq {L M : Learner} {C : Clause} {positive reduce : Bool}
    {result : Except ArityClash Outcome} (h : L.see C positive reduce = (result, M)) :
    L.Seen C reduce positive result M := by
  unfold see at h
  cases positive with
  | false =>
      cases h
      exact .ignored
  | true =>
      rw [if_pos rfl] at h
      cases hsome : L.hypothesis with
      | none =>
          rw [hsome] at h
          cases h
          exact .adopted hsome
      | some H =>
          simp only [hsome] at h
          cases hcovers : L.covers H C with
          | true =>
              rw [hcovers, if_pos rfl] at h
              cases h
              exact .covered hsome hcovers
          | false =>
              rw [hcovers, if_neg Bool.false_ne_true] at h
              rcases hgen : H.generalize (Taxonomy.rule L.taxonomy) C L.supply with
                ⟨e | G, supply⟩
              · have hfailed : L.Seen C reduce true (.error e) { L with supply } :=
                  .failed hsome hcovers hgen
                simp only [hgen, hsome] at h hfailed
                cases h
                exact hfailed
              · simp only [hgen] at h
                cases h
                exact .generalized hsome hcovers hgen

theorem see_eq_of_seen {L M : Learner} {C : Clause} {positive reduce : Bool}
    {result : Except ArityClash Outcome} (h : L.Seen C reduce positive result M) :
    L.see C positive reduce = (result, M) := by
  unfold see
  cases h with
  | ignored => rfl
  | adopted hnone =>
      rw [hnone]
      rfl
  | covered hsome hcovers => simp [hsome, hcovers]
  | failed hsome hcovers hgen => simp [hsome, hcovers, hgen]
  | generalized hsome hcovers hgen => simp [hsome, hcovers, hgen]

theorem supply_see_of_not_covers {L : Learner} {H C : Clause} (hsome : L.hypothesis = some H)
    (hcovers : L.covers H C = false) (reduce : Bool) :
    (L.see C true reduce).2.supply =
      (H.generalize (Taxonomy.rule L.taxonomy) C L.supply).2 := by
  rcases hgen : H.generalize (Taxonomy.rule L.taxonomy) C L.supply with ⟨e | G, supply⟩
  · rw [see_eq_of_seen (.failed hsome hcovers hgen)]
  · rw [see_eq_of_seen (.generalized hsome hcovers hgen)]

theorem step_eq_of_see_eq {L M : Learner} {C : Clause} {positive reduce : Bool}
    {result : Except ArityClash Outcome} (h : L.see C positive reduce = (result, M)) :
    L.step (.see C positive reduce) = M :=
  congrArg Prod.snd h

theorem step_setup (L : Learner) (e : Event) :
    (L.step e).covers = L.covers ∧ (L.step e).taxonomy = L.taxonomy := by
  cases e with
  | configure config => exact ⟨rfl, rfl⟩
  | see C positive reduce =>
      rcases hsee : L.see C positive reduce with ⟨result, M⟩
      rw [step_eq_of_see_eq hsee]
      cases seen_of_see_eq hsee <;> exact ⟨rfl, rfl⟩

theorem run_setup (L : Learner) (es : List Event) :
    (L.run es).covers = L.covers ∧ (L.run es).taxonomy = L.taxonomy := by
  induction es generalizing L with
  | nil => exact ⟨rfl, rfl⟩
  | cons e es ih =>
      rcases ih (L.step e) with ⟨hcovers, htaxonomy⟩
      rcases L.step_setup e with ⟨hcovers', htaxonomy'⟩
      exact ⟨hcovers.trans hcovers', htaxonomy.trans htaxonomy'⟩

theorem Seen.hypothesis_ne_none {L M : Learner} {C : Clause} {positive reduce : Bool}
    {result : Except ArityClash Outcome} (hseen : L.Seen C reduce positive result M)
    (h : positive = true ∨ L.hypothesis ≠ none) : M.hypothesis ≠ none := by
  cases hseen with
  | ignored =>
      rcases h with hpositive | hsome
      · cases hpositive
      · exact hsome
  | adopted hnone => exact Option.some_ne_none C
  | covered hsome hcovers => exact hsome ▸ Option.some_ne_none _
  | failed hsome hcovers hgen => exact hsome ▸ Option.some_ne_none _
  | generalized hsome hcovers hgen => exact Option.some_ne_none _

theorem hypothesis_run_ne_none {L : Learner} {es : List Event}
    (h : (∃ C reduce, .see C true reduce ∈ es) ∨ L.hypothesis ≠ none) :
    (L.run es).hypothesis ≠ none := by
  induction es generalizing L with
  | nil =>
      rcases h with ⟨C, reduce, hmem⟩ | hsome
      · cases hmem
      · exact hsome
  | cons e es ih =>
      by_cases hrest : ∃ C reduce, .see C true reduce ∈ es
      · exact ih (Or.inl hrest)
      · refine ih (Or.inr ?_)
        cases e with
        | configure config =>
            rcases h with ⟨C, reduce, hmem⟩ | hsome
            · exact absurd ⟨C, reduce, (List.mem_cons.mp hmem).resolve_left nofun⟩ hrest
            · exact hsome
        | see C positive reduce =>
            rcases hsee : L.see C positive reduce with ⟨result, M⟩
            rw [step_eq_of_see_eq hsee]
            apply (seen_of_see_eq hsee).hypothesis_ne_none
            rcases h with ⟨D, reduce', hmem⟩ | hsome
            · rcases List.mem_cons.mp hmem with hfirst | hmem
              · cases hfirst
                exact Or.inl rfl
              · exact absurd ⟨D, reduce', hmem⟩ hrest
            · exact Or.inr hsome

/-!
# The hypothesis after a generalization
-/

theorem simplify_eq {L : Learner} (hL : L.covers = Clause.subsumes) (reduce : Bool) (G : Clause) :
    L.simplify reduce G =
      if reduce = true ∧ (G.prune Clause.subsumes).size ≠ G.size then
        (G.prune Clause.subsumes, true)
      else (G, false) := by
  unfold simplify
  rw [hL, Clause.reduce_eq_prune]
  simp only [Clause.sameLiterals_prune_iff]
  by_cases hsize : (G.prune Clause.subsumes).size = G.size
  · simp [hsize]
  · simp [hsize]

theorem simplify_equivalent {L : Learner} (hL : L.covers = Clause.subsumes) (reduce : Bool)
    (G : Clause) :
    G.Subsumes (L.simplify reduce G).1 ∧ (L.simplify reduce G).1.Subsumes G := by
  rw [simplify_eq hL]
  by_cases hsmaller : reduce = true ∧ (G.prune Clause.subsumes).size ≠ G.size
  · rw [if_pos hsmaller]
    exact ⟨Clause.subsumes_prune G, Clause.Subsumes.of_subset (Clause.prune_subset G)⟩
  · rw [if_neg hsmaller]
    exact ⟨Clause.Subsumes.refl G, Clause.Subsumes.refl G⟩

theorem simplify_subset {L : Learner} (hL : L.covers = Clause.subsumes) (reduce : Bool)
    (G : Clause) : (L.simplify reduce G).1 ⊆ G := by
  rw [simplify_eq hL]
  by_cases hsmaller : reduce = true ∧ (G.prune Clause.subsumes).size ≠ G.size
  · rw [if_pos hsmaller]
    exact Clause.prune_subset G
  · rw [if_neg hsmaller]
    exact fun l hl => hl

theorem predicts_iff {L : Learner} (hL : L.covers = Clause.subsumes) {C : Clause} :
    L.predicts C = true ↔ ∃ H, L.hypothesis = some H ∧ H.Subsumes C := by
  rw [predicts, hL]
  cases L.hypothesis with
  | none => simp
  | some H => simp [Clause.subsumes_iff]

theorem rel_equivalent_symm {H K : Option Clause} (h : Option.Rel Clause.Equivalent H K) :
    Option.Rel Clause.Equivalent K H := by
  cases h with
  | none => exact .none
  | some hHK => exact .some hHK.symm

theorem predicts_of_equivalent {L M : Learner} (hL : L.covers = Clause.subsumes)
    (hM : M.covers = Clause.subsumes) {C : Clause}
    (hrel : Option.Rel Clause.Equivalent L.hypothesis M.hypothesis) (hC : M.predicts C = true) :
    L.predicts C = true := by
  rcases (predicts_iff hM).mp hC with ⟨K, hK, hKC⟩
  rw [hK] at hrel
  generalize hH : L.hypothesis = hypothesis at hrel
  cases hrel with
  | @some H _ hHK =>
      exact (predicts_iff hL).mpr ⟨H, hH, (Clause.equivalent_iff.mp hHK).left.trans hKC⟩

end Learner

end ClauseInduction
