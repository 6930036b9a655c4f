import ClauseInduction.Proofs.Task.RoundTrip
import ClauseInduction.Proofs.Learner.Failure

/-!
# Documents of hypotheses

A hypothesis can be written as a sample and read back.  Generalizing saturated terms gives a
saturated term that is nested no deeper, because what it puts in the place of a pair of terms is a
variable or a constant; so whatever is learned from a task that was read fits where the samples of
the task did.
-/

namespace ClauseInduction

/-!
# Generalizations fit
-/

namespace Term

theorem fits_app_iff {f : FunctionSymbol} {args : List Term} {room : Nat} :
    (app f args).Fits room ↔
      f.arity = args.length ∧ 2 ≤ room ∧ ∀ t ∈ args, t.Fits (room - 2) := by
  rw [Fits, depth_toJson_app_le_iff, Saturated, saturatedList_iff]
  constructor
  · intro h
    rcases h with ⟨⟨harity, hsaturated⟩, hroom, hdepth⟩
    exact ⟨harity, hroom, fun t ht => ⟨hsaturated t ht, Nat.le_sub_of_add_le (hdepth t ht)⟩⟩
  · intro h
    rcases h with ⟨harity, hroom, hargs⟩
    exact ⟨⟨harity, fun t ht => (hargs t ht).left⟩, hroom,
      fun t ht => Nat.add_le_of_le_sub hroom (hargs t ht).right⟩

theorem depth_toJson_pos (t : Term) : 1 ≤ t.toJson.depth := by
  cases t <;> exact Nat.succ_pos _

theorem Fits.mono {room room' : Nat} {t : Term} (h : t.Fits room) (hroom : room ≤ room') :
    t.Fits room' :=
  ⟨h.left, Nat.le_trans h.right hroom⟩

theorem Fits.combine {φ : Term → Term → Term} {s t : Term} {room : Nat} (hs : s.Fits room)
    (hφ : ∀ p ∈ aligned s t, (φ p.1 p.2).Fits 1) : (combine φ s t).Fits room := by
  induction s, t using pairInduction generalizing room with
  | leaf s t hshape =>
      rw [combine_of_not_sameShape hshape]
      rw [aligned_of_not_sameShape hshape, List.forall_mem_singleton] at hφ
      exact hφ.mono (Nat.le_trans s.depth_toJson_pos hs.right)
  | app f ss ts hlength ih =>
      rw [aligned_app hlength] at hφ
      rw [combine_app hlength]
      rcases fits_app_iff.mp hs with ⟨harity, hroom, hargs⟩
      refine fits_app_iff.mpr ⟨by simpa [hlength] using harity, hroom, ?_⟩
      refine List.forall_mem_map.mpr fun q hq => ?_
      apply ih q hq (hargs q.1 (List.of_mem_zip hq).left)
      intro p hp
      exact hφ p (mem_alignedList.mpr ⟨q, hq, hp⟩)

end Term

theorem Literal.Fits.combine {φ : Term → Term → Term} {l m : Literal} {room : Nat}
    (hl : l.Fits room) (hφ : ∀ p ∈ l.aligned m, (φ p.1 p.2).Fits 1) : (l.combine φ m).Fits room := by
  intro t ht
  rw [Literal.combine, Term.combineList_eq_map] at ht
  rcases List.mem_map.mp ht with ⟨q, hq, rfl⟩
  apply Term.Fits.combine (hl q.1 (List.of_mem_zip hq).left)
  intro p hp
  exact hφ p (Term.mem_alignedList.mpr ⟨q, hq, hp⟩)

namespace Clause

def Fits (room : Nat) (C : Clause) : Prop :=
  ∀ l ∈ C, l.Fits room

theorem IsGeneralization.fits_one {rule : AncestorRule} {A B G : Clause} {φ : Term → Term → Term}
    (h : IsGeneralization rule A B G φ) (hvars : MintsVars rule A B φ) {p : Term × Term}
    (hp : Aligned A B p) : (φ p.1 p.2).Fits 1 := by
  rcases h.term_cases hvars hp with ⟨x, hx⟩ | ⟨c, -, hc⟩ | ⟨a, b, c, -, -, hc⟩
  · rw [hx]
    exact ⟨trivial, Nat.le_refl 1⟩
  · rw [hc]
    exact ⟨trivial, Nat.le_refl 1⟩
  · rw [hc]
    exact ⟨trivial, Nat.le_refl 1⟩

theorem Fits.generalize {rule : AncestorRule} {A B G : Clause} {supply next : NameSupply}
    {room : Nat} (hA : A.Fits room) (h : A.generalize rule B supply = (.ok G, next)) :
    G.Fits room := by
  rcases exists_isGeneralization_mintsVars h with ⟨φ, hG, hvars, -⟩
  intro g hg
  rcases (hG.mem_iff g).mp hg with ⟨l, hl, m, hm, hlm, rfl⟩
  apply (hA l hl).combine
  intro p hp
  exact hG.fits_one hvars ⟨l, hl, m, hm, hlm, hp⟩

theorem fits_ofList {ls : List Literal} {room : Nat} (h : ∀ l ∈ ls, l.Fits room) :
    (ofList ls).Fits room :=
  fun l hl => h l (mem_ofList.mp hl)

end Clause

/-!
# Hypotheses fit
-/

namespace Learner

def Fits (room : Nat) (L : Learner) : Prop :=
  ∀ H, L.hypothesis = some H → H.Fits room

theorem Seen.fits {L M : Learner} {C : Clause} {positive reduce : Bool}
    {result : Except ArityClash Outcome} {room : Nat} (hL : L.covers = Clause.subsumes)
    (hseen : L.Seen C reduce positive result M) (hC : C.Fits room) (hfits : L.Fits room) :
    M.Fits room := by
  cases hseen with
  | ignored => exact hfits
  | adopted hnone =>
      intro H hH
      cases hH
      exact hC
  | covered hsome hcovers => exact hfits
  | failed hsome hcovers hgen => exact hfits
  | @generalized H G supply hsome hcovers hgen =>
      intro K hK
      cases hK
      exact fun l hl => (hfits H hsome).generalize hgen l (simplify_subset hL reduce G l hl)

theorem fits_observeAll {L : Learner} {samples : List Sample} {room : Nat}
    (hL : L.covers = Clause.subsumes) (hsamples : ∀ s ∈ samples, s.clause.Fits room)
    (hfits : L.Fits room) : (L.observeAll samples).Fits room := by
  induction samples generalizing L with
  | nil => exact hfits
  | cons s samples ih =>
      rcases List.forall_mem_cons.mp hsamples with ⟨hs, hrest⟩
      rcases hobserve : L.observe s with ⟨result, M⟩
      have hseen := seen_of_see_eq hobserve
      have hcovers : M.covers = Clause.subsumes := by
        rw [← step_eq_of_see_eq hobserve, (L.step_setup _).left, hL]
      rw [observeAll, List.foldl_cons, hobserve]
      exact ih hcovers hrest (hseen.fits hL hs hfits)

theorem fits_observeAll_of_parse {text : String} {t : Task} (hparse : Task.parse text = .ok t)
    (taxonomy : Option Taxonomy) (config : LearnerConfig) {part : List Sample}
    (hpart : part ⊆ t.samples) :
    (((new taxonomy).configure config).observeAll part).Fits (Json.maxDepth - 8) := by
  have hsamples : ∀ s ∈ part, s.clause.Fits (Json.maxDepth - 8) := by
    intro s hs
    rcases List.mem_map.mp (hpart hs) with ⟨e, he, rfl⟩
    exact Clause.fits_ofList ((Task.fits_of_parse hparse).right e he)
  have hnone : ((new taxonomy).configure config).Fits (Json.maxDepth - 8) := nofun
  exact fits_observeAll rfl hsamples hnone

/-- What a learner makes of samples of a task that was read, in any order and with any taxonomy and
configuration, can be written as a sample of a task with facts of that task, and is read back with
its literals in their order. -/
theorem exists_parse_write_hypothesis {text : String} {t : Task} (hparse : Task.parse text = .ok t)
    (taxonomy : Option Taxonomy) (config : LearnerConfig) {part : List Sample}
    (hpart : part ⊆ t.samples) {H : Clause}
    (hH : (((new taxonomy).configure config).observeAll part).hypothesis = some H)
    {facts : List Literal} (hfacts : facts ⊆ t.facts) (positive : Bool) :
    ∃ u, Task.parse (Task.write ⟨facts, [⟨positive, H.literals⟩]⟩) = .ok u ∧
      u.facts = facts ∧ u.samples = [⟨H, positive⟩] := by
  have ht : t.Fits Json.maxDepth := Task.fits_of_parse hparse
  have hHfits : H.Fits (Json.maxDepth - 8) :=
    fits_observeAll_of_parse hparse taxonomy config hpart H hH
  have hu : Task.Fits Json.maxDepth ⟨facts, [⟨positive, H.literals⟩]⟩ :=
    ⟨fun l hl => ht.left l (hfacts hl), List.forall_mem_singleton.mpr hHfits⟩
  refine ⟨_, Task.parse_write hu.saturated (hu.depth_toJson_le (by decide)), rfl, ?_⟩
  simp [Task.samples, Example.toSample]

def tower (n : Nat) (t : Term) : Term :=
  n.fold (fun _ _ u => .app ⟨"f", 1⟩ [u]) t

/-- The samples are nested as deeply as a document can be. -/
def towerTask : Task :=
  ⟨[Taxonomy.isa "a" "c", Taxonomy.isa "b" "c"],
    [⟨true, [⟨true, "p\n", [tower 59 (.const "a"), .var "\""]⟩]⟩,
      ⟨true, [⟨true, "p\n", [tower 59 (.const "b"), .var "\""]⟩]⟩]⟩

theorem parse_towerTask : Task.parse towerTask.write = .ok towerTask := by
  refine Task.parse_write ?_ (by decide +kernel)
  simp [towerTask, tower, Task.Saturated, Literal.Saturated, Term.Saturated, Term.SaturatedList,
    Taxonomy.isa]

theorem exists_parse_write_tower : ∃ T H u,
    towerTask.toJson.depth = Json.maxDepth ∧ Taxonomy.ofFacts towerTask.facts = .ok T ∧
      (((new (some T)).configure {}).observeAll towerTask.samples).hypothesis = some H ∧
      H.literals = [⟨true, "p\n", [tower 59 (.const "c"), .var "\""]⟩] ∧
      Task.parse (Task.write ⟨towerTask.facts, [⟨true, H.literals⟩]⟩) = .ok u ∧
      u.samples = [⟨H, true⟩] := by
  have hlearned : ∃ T H, Taxonomy.ofFacts towerTask.facts = .ok T ∧
      (((new (some T)).configure {}).observeAll towerTask.samples).hypothesis = some H ∧
      H.literals = [⟨true, "p\n", [tower 59 (.const "c"), .var "\""]⟩] :=
    ⟨_, _, rfl, rfl, by decide +kernel⟩
  rcases hlearned with ⟨T, H, hT, hH, hliterals⟩
  rcases exists_parse_write_hypothesis parse_towerTask (some T) {} (List.Subset.refl _) hH
    (List.Subset.refl _) true with ⟨u, hu, -, hsamples⟩
  exact ⟨T, H, u, by decide +kernel, hT, hH, hliterals, hu, hsamples⟩

end Learner

end ClauseInduction
