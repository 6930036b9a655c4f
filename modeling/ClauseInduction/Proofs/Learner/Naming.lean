import ClauseInduction.Proofs.Generalization.Renaming
import ClauseInduction.Proofs.Learner.Run

/-!
# Names and listing order do not matter

Two learners that see the same ground samples stay alike: whatever names they make and in whatever
order the literals of a sample are listed, their calls return the same and their hypotheses are
variants.  A change of configuration on one side is a step that the other side need not follow.
-/

namespace ClauseInduction
namespace Learner

/-!
# Learners that are alike
-/

structure Alike (L M : Learner) : Prop where
  covers : L.covers = Clause.subsumes
  covers' : M.covers = Clause.subsumes
  taxonomy : L.taxonomy = M.taxonomy
  hypothesis : Option.Rel Clause.IsVariant L.hypothesis M.hypothesis

theorem Alike.configureLeft {L M : Learner} (h : L.Alike M) (config : LearnerConfig) :
    (L.configure config).Alike M :=
  ⟨h.covers, h.covers', h.taxonomy, h.hypothesis⟩

theorem Alike.configureRight {L M : Learner} (h : L.Alike M) (config : LearnerConfig) :
    L.Alike (M.configure config) :=
  ⟨h.covers, h.covers', h.taxonomy, h.hypothesis⟩

theorem subsumes_eq_of_isVariant {H K C D : Clause} (hHK : H.IsVariant K)
    (hCD : C.SameLiterals D) : H.subsumes C = K.subsumes D := by
  rw [Bool.eq_iff_iff, Clause.subsumes_iff, Clause.subsumes_iff]
  constructor
  · intro h
    exact (hHK.symm.subsumes.trans h).trans (Clause.Subsumes.of_subset hCD.left)
  · intro h
    exact (hHK.subsumes.trans h).trans (Clause.Subsumes.of_subset hCD.right)

theorem simplify_of_isVariant {L M : Learner} (h : L.Alike M) {G G' : Clause}
    (hGG' : G.IsVariant G') (reduce : Bool) :
    (L.simplify reduce G).2 = (M.simplify reduce G').2 ∧
      (L.simplify reduce G).1.IsVariant (M.simplify reduce G').1 := by
  have hpruned := Clause.isVariant_prune hGG'.subsumes hGG'.symm.subsumes
  rw [simplify_eq h.covers, simplify_eq h.covers', hpruned.size_eq, hGG'.size_eq]
  by_cases hsmaller : reduce = true ∧ (G'.prune Clause.subsumes).size ≠ G'.size
  · rw [if_pos hsmaller, if_pos hsmaller]
    exact ⟨rfl, hpruned⟩
  · rw [if_neg hsmaller, if_neg hsmaller]
    exact ⟨rfl, hGG'⟩

/-!
# One call
-/

theorem generalize_of_isVariant {rule : AncestorRule} {H K C D : Clause}
    {supply supply' : NameSupply} (hHK : H.IsVariant K) (hground : C.Ground)
    (hCD : C.SameLiterals D)
    (hdraws : (H.generalize rule C supply).2.count ≤ supply.count + NameSupply.period)
    (hdraws' : (K.generalize rule D supply').2.count ≤ supply'.count + NameSupply.period) :
    (∃ e e' next next', H.generalize rule C supply = (.error e, next) ∧
      K.generalize rule D supply' = (.error e', next')) ∨
    ∃ G G' next next', H.generalize rule C supply = (.ok G, next) ∧
      K.generalize rule D supply' = (.ok G', next') ∧ G.IsVariant G' := by
  rcases hHK with ⟨ρ, hρ, hH⟩
  have hC : Clause.RenamedBy ρ C D := Clause.renamedBy_of_ground hground hCD ρ
  have hok := Clause.generalize_ok_iff_of_renamedBy rule supply supply' hH hC
  rcases hgen : H.generalize rule C supply with ⟨e | G, next⟩
  · rcases hgen' : K.generalize rule D supply' with ⟨e' | G', next'⟩
    · exact Or.inl ⟨e, e', next, next', rfl, rfl⟩
    · rcases hok.mpr ⟨G', congrArg Prod.fst hgen'⟩ with ⟨G, hG⟩
      rw [hgen] at hG
      cases hG
  · rcases hgen' : K.generalize rule D supply' with ⟨e' | G', next'⟩
    · rcases hok.mp ⟨G, congrArg Prod.fst hgen⟩ with ⟨G', hG'⟩
      rw [hgen'] at hG'
      cases hG'
    · refine Or.inr ⟨G, G', next, next', rfl, rfl, ?_⟩
      rw [hgen] at hdraws
      rw [hgen'] at hdraws'
      rcases Clause.exists_isGeneralization hgen with ⟨φ, hG, hapart⟩
      rcases Clause.exists_isGeneralization hgen' with ⟨φ', hG', hapart'⟩
      refine hG.isVariant hG' (hapart hdraws) (hapart' hdraws') (ρ := ρ) ?_ hH hC
      rw [hground, List.append_nil]
      exact hρ

theorem Alike.see {L M : Learner} (h : L.Alike M) {C D : Clause} (hground : C.Ground)
    (hCD : C.SameLiterals D) (positive reduce : Bool)
    (hdraws : (L.see C positive reduce).2.supply.count < L.supply.count + NameSupply.period)
    (hdraws' : (M.see D positive reduce).2.supply.count < M.supply.count + NameSupply.period) :
    (L.see C positive reduce).1.toOption = (M.see D positive reduce).1.toOption ∧
      (L.see C positive reduce).2.Alike (M.see D positive reduce).2 := by
  cases positive with
  | false =>
      rw [see_eq_of_seen (.ignored (L := L)), see_eq_of_seen (.ignored (L := M))]
      exact ⟨rfl, h⟩
  | true =>
      -- the relation of the hypotheses leaves two cases of four
      have hrel := h.hypothesis
      generalize hL : L.hypothesis = hypothesis at hrel
      generalize hM : M.hypothesis = hypothesis' at hrel
      cases hrel with
      | none =>
          rw [see_eq_of_seen (.adopted hL), see_eq_of_seen (.adopted hM)]
          exact ⟨rfl, h.covers, h.covers', h.taxonomy, .some hCD.isVariant⟩
      | @some H K hHK =>
          have hsame : L.covers H C = M.covers K D := by
            rw [h.covers, h.covers']
            exact subsumes_eq_of_isVariant hHK hCD
          cases hcovers : L.covers H C with
          | true =>
              rw [see_eq_of_seen (.covered hL hcovers),
                see_eq_of_seen (.covered hM (hsame.symm.trans hcovers))]
              exact ⟨rfl, h⟩
          | false =>
              have hcovers' := hsame.symm.trans hcovers
              rw [supply_see_of_not_covers hL hcovers] at hdraws
              rw [supply_see_of_not_covers hM hcovers', ← h.taxonomy] at hdraws'
              rcases generalize_of_isVariant hHK hground hCD hdraws.le hdraws'.le with
                ⟨e, e', next, next', hgen, hgen'⟩ | ⟨G, G', next, next', hgen, hgen', hGG'⟩
              · rw [h.taxonomy] at hgen'
                rw [see_eq_of_seen (.failed hL hcovers hgen),
                  see_eq_of_seen (.failed hM hcovers' hgen')]
                exact ⟨rfl, h.covers, h.covers', h.taxonomy, h.hypothesis⟩
              · rw [h.taxonomy] at hgen'
                rw [see_eq_of_seen (.generalized hL hcovers hgen),
                  see_eq_of_seen (.generalized hM hcovers' hgen')]
                rcases simplify_of_isVariant h hGG' reduce with ⟨hreduced, hvariant⟩
                refine ⟨?_, h.covers, h.covers', h.taxonomy, .some hvariant⟩
                rw [hreduced]

/-!
# Runs
-/

/-- The runs show the same ground samples, up to the order of their literals; the learners may be
configured at any time. -/
inductive SameSamples : List Event → List Event → Prop where
  | nil : SameSamples [] []
  | see {C D : Clause} {es fs : List Event} (hground : C.Ground) (hCD : C.SameLiterals D)
      (positive reduce : Bool) (h : SameSamples es fs) :
      SameSamples (.see C positive reduce :: es) (.see D positive reduce :: fs)
  | configureLeft {es fs : List Event} (config : LearnerConfig) (h : SameSamples es fs) :
      SameSamples (.configure config :: es) fs
  | configureRight {es fs : List Event} (config : LearnerConfig) (h : SameSamples es fs) :
      SameSamples es (.configure config :: fs)

theorem Alike.trace {L M : Learner} (h : L.Alike M) {es fs : List Event}
    (hsamples : SameSamples es fs) (hdraws : L.DrawsWithinPeriod es)
    (hdraws' : M.DrawsWithinPeriod fs) :
    List.Forall₂ (fun a b => a.1.toOption = b.1.toOption ∧ Option.Rel Clause.IsVariant a.2 b.2)
      (L.trace es) (M.trace fs) := by
  induction hsamples generalizing L M with
  | nil => exact .nil
  | see hground hCD positive reduce hsamples ih =>
      rcases h.see hground hCD positive reduce hdraws.left hdraws'.left with ⟨hresult, halike⟩
      exact .cons ⟨hresult, halike.hypothesis⟩ (ih halike hdraws.right hdraws'.right)
  | configureLeft config hsamples ih =>
      exact ih (h.configureLeft config) hdraws hdraws'
  | configureRight config hsamples ih =>
      exact ih (h.configureRight config) hdraws hdraws'

/-- Whatever their names and strategies, and in whatever order the literals are listed, both
learners answer alike and hold variants after every sample. -/
theorem forall₂_trace_of_sameSamples {L M : Learner} (hL : L.covers = Clause.subsumes)
    (hM : M.covers = Clause.subsumes) (htaxonomy : L.taxonomy = M.taxonomy)
    (hstart : Option.Rel (fun H K => H.isVariant K = true) L.hypothesis M.hypothesis)
    {es fs : List Event} (hsamples : SameSamples es fs) (hdraws : L.DrawsWithinPeriod es)
    (hdraws' : M.DrawsWithinPeriod fs) :
    List.Forall₂ (fun a b => a.1.toOption = b.1.toOption ∧
        Option.Rel (fun H K => H.isVariant K = true) a.2 b.2)
      (L.trace es) (M.trace fs) := by
  simp only [Clause.isVariant_iff] at hstart ⊢
  exact Alike.trace ⟨hL, hM, htaxonomy, hstart⟩ hsamples hdraws hdraws'

/-- Two symmetric edges, then two others.  One learner starts again from its first name in between,
the other has a stem of its own and lists the edges the other way round. -/
theorem forall₂_trace_edges :
    List.Forall₂ (fun a b => a.1.toOption = b.1.toOption ∧
        Option.Rel (fun H K => H.isVariant K = true) a.2 b.2)
      (trace (new none)
        [.see (.ofList [⟨true, "e", [.const "a", .const "b"]⟩,
            ⟨true, "e", [.const "b", .const "a"]⟩]) true true,
          .configure { strategy := .fixedPoint },
          .see (.ofList [⟨true, "e", [.const "c", .const "d"]⟩,
            ⟨true, "e", [.const "d", .const "c"]⟩]) true true])
      (trace (configure { stem := "X" } (new none))
        [.see (.ofList [⟨true, "e", [.const "b", .const "a"]⟩,
            ⟨true, "e", [.const "a", .const "b"]⟩]) true true,
          .see (.ofList [⟨true, "e", [.const "d", .const "c"]⟩,
            ⟨true, "e", [.const "c", .const "d"]⟩]) true true]) := by
  refine forall₂_trace_of_sameSamples (L := new none) (M := configure { stem := "X" } (new none))
    rfl rfl rfl .none ?_ ?_ ?_
  · refine .see ?_ (by decide) true true (.configureLeft _ (.see ?_ (by decide) true true .nil))
    · rfl
    · rfl
  · exact ⟨by decide, by decide, trivial⟩
  · exact ⟨by decide, by decide, trivial⟩

end Learner
end ClauseInduction
