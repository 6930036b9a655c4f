import ClauseInduction.Generalization
import ClauseInduction.Proofs.Substitution

/-!
# Combining terms under a fixed choice of terms for pairs

Once every pair of terms has its term, generalization is a function of two terms: it descends
through applications of the same shape and puts the chosen terms in the places of the pairs that
it meets.  These pairs are the aligned pairs.
-/

namespace ClauseInduction

theorem zip_map_self {α β : Type} (f : α → β) (xs : List α) :
    xs.zip (xs.map f) = xs.map fun x => (x, f x) := by
  simpa using List.zip_map' (f := id) (g := f) (l := xs)

namespace Term

mutual

/-- The generalization of two terms when `φ` names the term for each pair. -/
def combine (φ : Term → Term → Term) : Term → Term → Term
  | app f ss, app g ts =>
      if SameShape (app f ss) (app g ts) then app f (combineList φ ss ts)
      else φ (app f ss) (app g ts)
  | s, t => φ s t

def combineList (φ : Term → Term → Term) : List Term → List Term → List Term
  | s :: ss, t :: ts => combine φ s t :: combineList φ ss ts
  | _, _ => []

end

mutual

/-- The pairs that two terms are resolved into, from left to right. -/
def aligned : Term → Term → List (Term × Term)
  | app f ss, app g ts =>
      if SameShape (app f ss) (app g ts) then alignedList ss ts else [(app f ss, app g ts)]
  | s, t => [(s, t)]

def alignedList : List Term → List Term → List (Term × Term)
  | s :: ss, t :: ts => aligned s t ++ alignedList ss ts
  | _, _ => []

end

/-!
# Equations for the two cases
-/

theorem combineList_eq_map (φ : Term → Term → Term) (ss ts : List Term) :
    combineList φ ss ts = (ss.zip ts).map fun q => combine φ q.1 q.2 := by
  induction ss generalizing ts with
  | nil => cases ts <;> rfl
  | cons s ss ih =>
      cases ts with
      | nil => rfl
      | cons t ts => rw [combineList, ih, List.zip_cons_cons, List.map_cons]

theorem combine_of_not_sameShape {s t : Term} (h : ¬ SameShape s t) (φ : Term → Term → Term) :
    combine φ s t = φ s t := by
  cases s with
  | var x => rfl
  | const c => rfl
  | app f ss =>
      cases t with
      | var y => rfl
      | const d => rfl
      | app g ts => rw [combine, if_neg h]

theorem combine_app {ss ts : List Term} (h : ss.length = ts.length) (φ : Term → Term → Term)
    (f : FunctionSymbol) :
    combine φ (app f ss) (app f ts) = app f ((ss.zip ts).map fun q => combine φ q.1 q.2) := by
  rw [combine, if_pos ⟨rfl, h⟩, combineList_eq_map]

theorem mem_alignedList {p : Term × Term} {ss ts : List Term} :
    p ∈ alignedList ss ts ↔ ∃ q ∈ ss.zip ts, p ∈ aligned q.1 q.2 := by
  induction ss generalizing ts with
  | nil => cases ts <;> simp [alignedList]
  | cons s ss ih =>
      cases ts with
      | nil => simp [alignedList]
      | cons t ts => simp [alignedList, ih]

theorem aligned_of_not_sameShape {s t : Term} (h : ¬ SameShape s t) : aligned s t = [(s, t)] := by
  cases s with
  | var x => rfl
  | const c => rfl
  | app f ss =>
      cases t with
      | var y => rfl
      | const d => rfl
      | app g ts => rw [aligned, if_neg h]

theorem aligned_app {ss ts : List Term} (h : ss.length = ts.length) (f : FunctionSymbol) :
    aligned (app f ss) (app f ts) = alignedList ss ts := by
  rw [aligned, if_pos ⟨rfl, h⟩]

theorem sameShape_iff {s t : Term} :
    SameShape s t ↔ ∃ f ss ts, s = app f ss ∧ t = app f ts ∧ ss.length = ts.length := by
  cases s with
  | var x => simp [SameShape]
  | const c => simp [SameShape]
  | app f ss =>
      cases t with
      | var y => simp [SameShape]
      | const d => simp [SameShape]
      | app g ts =>
          constructor
          · intro h
            exact ⟨f, ss, ts, rfl, by rw [h.left], h.right⟩
          · intro h
            rcases h with ⟨f', ss', ts', hs, ht, hlength⟩
            cases hs
            cases ht
            exact ⟨rfl, hlength⟩

/-- Induction along the descent through applications of the same shape. -/
theorem pairInduction {motive : Term → Term → Prop}
    (leaf : ∀ s t, ¬ SameShape s t → motive s t)
    (app : ∀ f ss ts, ss.length = ts.length → (∀ p ∈ ss.zip ts, motive p.1 p.2) →
      motive (app f ss) (app f ts)) (s t : Term) : motive s t := by
  induction s generalizing t with
  | var x =>
      apply leaf
      intro h
      cases h
  | const c =>
      apply leaf
      intro h
      cases h
  | app f ss ih =>
      by_cases h : SameShape (.app f ss) t
      · rcases sameShape_iff.mp h with ⟨f', ss', ts, hs, rfl, hlength⟩
        cases hs
        refine app f ss ts hlength fun p hp => ?_
        exact ih p.1 (List.of_mem_zip hp).left p.2
      · exact leaf _ _ h

/-!
# What the choice of terms decides
-/

theorem combine_congr {φ ψ : Term → Term → Term} {s t : Term}
    (h : ∀ p ∈ aligned s t, φ p.1 p.2 = ψ p.1 p.2) : combine φ s t = combine ψ s t := by
  induction s, t using pairInduction with
  | leaf s t hshape =>
      rw [combine_of_not_sameShape hshape, combine_of_not_sameShape hshape]
      exact h (s, t) (by simp [aligned_of_not_sameShape hshape])
  | app f ss ts hlength ih =>
      rw [aligned_app hlength] at h
      rw [combine_app hlength, combine_app hlength]
      congr 1
      apply List.map_congr_left
      intro q hq
      exact ih q hq fun p hp => h p (mem_alignedList.mpr ⟨q, hq, hp⟩)

theorem subst_combine (φ : Term → Term → Term) (θ : String → Term) (s t : Term) :
    (combine φ s t).subst θ = combine (fun a b => (φ a b).subst θ) s t := by
  induction s, t using pairInduction with
  | leaf s t hshape =>
      rw [combine_of_not_sameShape hshape, combine_of_not_sameShape hshape]
  | app f ss ts hlength ih =>
      rw [combine_app hlength, combine_app hlength, subst_app, List.map_map]
      congr 1
      exact List.map_congr_left fun q hq => ih q hq

theorem combine_left (s t : Term) : combine (fun a _ => a) s t = s := by
  induction s, t using pairInduction with
  | leaf s t hshape => exact combine_of_not_sameShape hshape _
  | app f ss ts hlength ih =>
      rw [combine_app hlength, List.map_congr_left ih, List.map_fst_zip (by omega)]

theorem combine_right (s t : Term) : combine (fun _ b => b) s t = t := by
  induction s, t using pairInduction with
  | leaf s t hshape => exact combine_of_not_sameShape hshape _
  | app f ss ts hlength ih =>
      rw [combine_app hlength, List.map_congr_left ih, List.map_snd_zip (by omega)]

theorem combine_subst_subst {φ : Term → Term → Term} (hφ : ∀ t, φ t t = t)
    (σ τ : String → Term) (t : Term) :
    combine φ (t.subst σ) (t.subst τ) = t.subst fun x => combine φ (σ x) (τ x) := by
  induction t with
  | var x => rfl
  | const c => exact hφ (const c)
  | app f args ih =>
      rw [subst_app, subst_app, subst_app, combine_app (by simp), List.zip_map', List.map_map]
      congr 1
      exact List.map_congr_left ih

theorem combine_relabel (φ : Term → Term → Term) (ρ ρ' : String → String) (s t : Term) :
    combine φ (s.subst (relabel ρ)) (t.subst (relabel ρ')) =
      combine (fun a b => φ (a.subst (relabel ρ)) (b.subst (relabel ρ'))) s t := by
  induction s, t using pairInduction with
  | leaf s t hshape =>
      rw [combine_of_not_sameShape hshape,
        combine_of_not_sameShape (mt sameShape_subst_relabel.mp hshape)]
  | app f ss ts hlength ih =>
      rw [subst_app, subst_app, combine_app (by simpa using hlength), combine_app hlength,
        List.zip_map, List.map_map]
      congr 1
      exact List.map_congr_left fun q hq => ih q hq

/-!
# Aligned pairs
-/

theorem not_sameShape_of_mem_aligned {s t : Term} {p : Term × Term} (h : p ∈ aligned s t) :
    ¬ SameShape p.1 p.2 := by
  induction s, t using pairInduction with
  | leaf s t hshape =>
      rw [aligned_of_not_sameShape hshape, List.mem_singleton] at h
      rw [h]
      exact hshape
  | app f ss ts hlength ih =>
      rw [aligned_app hlength, mem_alignedList] at h
      rcases h with ⟨q, hq, hp⟩
      exact ih q hq hp

theorem mem_vars_combine {φ : Term → Term → Term} {s t : Term} {x : String} :
    x ∈ (combine φ s t).vars ↔ ∃ p ∈ aligned s t, x ∈ (φ p.1 p.2).vars := by
  induction s, t using pairInduction with
  | leaf s t hshape =>
      rw [combine_of_not_sameShape hshape, aligned_of_not_sameShape hshape]
      simp
  | app f ss ts hlength ih =>
      rw [combine_app hlength, aligned_app hlength, mem_vars_app]
      constructor
      · intro h
        rcases h with ⟨u, hu, hx⟩
        rcases List.mem_map.mp hu with ⟨q, hq, rfl⟩
        rcases (ih q hq).mp hx with ⟨p, hp, hxp⟩
        exact ⟨p, mem_alignedList.mpr ⟨q, hq, hp⟩, hxp⟩
      · intro h
        rcases h with ⟨p, hp, hxp⟩
        rcases mem_alignedList.mp hp with ⟨q, hq, hpq⟩
        exact ⟨_, List.mem_map_of_mem hq, (ih q hq).mpr ⟨p, hpq, hxp⟩⟩

theorem vars_subset_of_mem_aligned {s t : Term} {p : Term × Term} (h : p ∈ aligned s t) :
    p.1.vars ⊆ s.vars ∧ p.2.vars ⊆ t.vars := by
  induction s, t using pairInduction with
  | leaf s t hshape =>
      rw [aligned_of_not_sameShape hshape, List.mem_singleton] at h
      rw [h]
      exact ⟨List.Subset.refl _, List.Subset.refl _⟩
  | app f ss ts hlength ih =>
      rw [aligned_app hlength, mem_alignedList] at h
      rcases h with ⟨q, hq, hp⟩
      rcases ih q hq hp with ⟨hleft, hright⟩
      constructor
      · intro x hx
        exact mem_vars_app.mpr ⟨q.1, (List.of_mem_zip hq).left, hleft hx⟩
      · intro x hx
        exact mem_vars_app.mpr ⟨q.2, (List.of_mem_zip hq).right, hright hx⟩

theorem aligned_subset_aligned_subst {σ τ : String → Term} {t : Term} {x : String}
    (hx : x ∈ t.vars) : aligned (σ x) (τ x) ⊆ aligned (t.subst σ) (t.subst τ) := by
  induction t with
  | var y =>
      rw [List.mem_singleton.mp hx]
      exact List.Subset.refl _
  | const c => cases hx
  | app f args ih =>
      rcases mem_vars_app.mp hx with ⟨t, ht, hxt⟩
      intro p hp
      rw [subst_app, subst_app, aligned_app (by simp), mem_alignedList, List.zip_map']
      exact ⟨(t.subst σ, t.subst τ), List.mem_map_of_mem ht, ih t ht hxt hp⟩

theorem mem_aligned_relabel {ρ ρ' : String → String} {s t : Term} {p : Term × Term} :
    p ∈ aligned (s.subst (relabel ρ)) (t.subst (relabel ρ')) ↔
      ∃ q ∈ aligned s t, (q.1.subst (relabel ρ), q.2.subst (relabel ρ')) = p := by
  induction s, t using pairInduction with
  | leaf s t hshape =>
      rw [aligned_of_not_sameShape hshape,
        aligned_of_not_sameShape (mt sameShape_subst_relabel.mp hshape)]
      simp [eq_comm]
  | app f ss ts hlength ih =>
      rw [subst_app, subst_app, aligned_app (by simpa using hlength), aligned_app hlength,
        mem_alignedList, List.zip_map]
      constructor
      · intro h
        rcases h with ⟨u, hu, hp⟩
        rcases List.mem_map.mp hu with ⟨q, hq, rfl⟩
        rcases (ih q hq).mp hp with ⟨q', hq', rfl⟩
        exact ⟨q', mem_alignedList.mpr ⟨q, hq, hq'⟩, rfl⟩
      · intro h
        rcases h with ⟨q', hq', rfl⟩
        rcases mem_alignedList.mp hq' with ⟨q, hq, hqq'⟩
        exact ⟨_, List.mem_map_of_mem hq, (ih q hq).mpr ⟨q', hqq', rfl⟩⟩

end Term

/-!
# Literals

A literal is read as an application, so that the facts about terms carry over to compatible
literals.
-/

namespace Literal

def combine (φ : Term → Term → Term) (l m : Literal) : Literal :=
  ⟨l.positive, l.predicate, Term.combineList φ l.args m.args⟩

def aligned (l m : Literal) : List (Term × Term) :=
  Term.alignedList l.args m.args

def toTerm (l : Literal) : Term :=
  .app ⟨l.predicate, l.arity⟩ l.args

theorem eq_of_toTerm_eq {l m : Literal} (hsign : l.positive = m.positive)
    (h : l.toTerm = m.toTerm) : l = m := by
  cases l
  cases m
  simp_all [toTerm]

theorem toTerm_subst (σ : String → Term) (l : Literal) : (l.subst σ).toTerm = l.toTerm.subst σ := by
  simp [toTerm, subst, arity, Term.subst_app]

theorem mem_vars_toTerm {l : Literal} {x : String} : x ∈ l.toTerm.vars ↔ x ∈ l.vars := by
  rw [toTerm, Term.mem_vars_app, mem_vars]

theorem toTerm_combine {l m : Literal} (h : l.Compatible m) (φ : Term → Term → Term) :
    (l.combine φ m).toTerm = Term.combine φ l.toTerm m.toTerm := by
  have hlength : l.args.length = m.args.length := h.right
  have hpredicate : l.predicate = m.predicate := h.left.right
  have harity : l.arity = m.arity := h.right
  unfold toTerm
  rw [← harity, ← hpredicate, Term.combine_app hlength, ← Term.combineList_eq_map]
  simp [combine, arity, Term.combineList_eq_map, hlength]

theorem aligned_eq {l m : Literal} (h : l.Compatible m) :
    l.aligned m = Term.aligned l.toTerm m.toTerm := by
  have hpredicate : l.predicate = m.predicate := h.left.right
  have harity : l.arity = m.arity := h.right
  unfold toTerm
  rw [← harity, ← hpredicate, Term.aligned_app h.right]
  rfl

theorem Compatible.symm {l m : Literal} (h : l.Compatible m) : m.Compatible l :=
  ⟨h.left.symm, h.right.symm⟩

theorem Compatible.trans {k l m : Literal} (h : k.Compatible l) (h' : l.Compatible m) :
    k.Compatible m :=
  ⟨⟨h.left.left.trans h'.left.left, h.left.right.trans h'.left.right⟩, h.right.trans h'.right⟩

theorem combine_compatible {l m : Literal} (h : l.Compatible m) (φ : Term → Term → Term) :
    (l.combine φ m).Compatible l := by
  have hlength : l.args.length = m.args.length := h.right
  simp [Compatible, Comparable, combine, arity, Term.combineList_eq_map, hlength]

theorem combine_congr {φ ψ : Term → Term → Term} {l m : Literal} (h : l.Compatible m)
    (hφψ : ∀ p ∈ l.aligned m, φ p.1 p.2 = ψ p.1 p.2) : l.combine φ m = l.combine ψ m := by
  refine eq_of_toTerm_eq rfl ?_
  rw [toTerm_combine h, toTerm_combine h]
  rw [aligned_eq h] at hφψ
  exact Term.combine_congr hφψ

theorem subst_combine {l m : Literal} (h : l.Compatible m) (φ : Term → Term → Term)
    (θ : String → Term) :
    (l.combine φ m).subst θ = l.combine (fun a b => (φ a b).subst θ) m := by
  refine eq_of_toTerm_eq rfl ?_
  rw [toTerm_subst, toTerm_combine h, toTerm_combine h, Term.subst_combine]

theorem combine_left {l m : Literal} (h : l.Compatible m) : l.combine (fun a _ => a) m = l := by
  refine eq_of_toTerm_eq rfl ?_
  rw [toTerm_combine h, Term.combine_left]

theorem combine_right {l m : Literal} (h : l.Compatible m) : l.combine (fun _ b => b) m = m := by
  refine eq_of_toTerm_eq h.left.left ?_
  rw [toTerm_combine h, Term.combine_right]

theorem combine_subst_subst {φ : Term → Term → Term} (hφ : ∀ t, φ t t = t)
    (σ τ : String → Term) (l : Literal) :
    (l.subst σ).combine φ (l.subst τ) = l.subst fun x => Term.combine φ (σ x) (τ x) := by
  refine eq_of_toTerm_eq rfl ?_
  rw [toTerm_combine (compatible_subst_subst σ τ l), toTerm_subst, toTerm_subst, toTerm_subst,
    Term.combine_subst_subst hφ]

theorem compatible_relabel {ρ ρ' : String → String} {l m : Literal} :
    (l.subst (relabel ρ)).Compatible (m.subst (relabel ρ')) ↔ l.Compatible m := by
  simp [Compatible, Comparable, subst, arity]

theorem combine_relabel {l m : Literal} (h : l.Compatible m) (φ : Term → Term → Term)
    (ρ ρ' : String → String) :
    (l.subst (relabel ρ)).combine φ (m.subst (relabel ρ')) =
      l.combine (fun a b => φ (a.subst (relabel ρ)) (b.subst (relabel ρ'))) m := by
  refine eq_of_toTerm_eq rfl ?_
  rw [toTerm_combine (compatible_relabel.mpr h), toTerm_combine h, toTerm_subst, toTerm_subst,
    Term.combine_relabel]

theorem mem_vars_combine {φ : Term → Term → Term} {l m : Literal} (h : l.Compatible m)
    {x : String} :
    x ∈ (l.combine φ m).vars ↔ ∃ p ∈ l.aligned m, x ∈ (φ p.1 p.2).vars := by
  rw [← mem_vars_toTerm, toTerm_combine h, aligned_eq h, Term.mem_vars_combine]

theorem aligned_subset_aligned_subst {σ τ : String → Term} {l : Literal} {x : String}
    (hx : x ∈ l.vars) : Term.aligned (σ x) (τ x) ⊆ (l.subst σ).aligned (l.subst τ) := by
  rw [aligned_eq (compatible_subst_subst σ τ l), toTerm_subst, toTerm_subst]
  exact Term.aligned_subset_aligned_subst (mem_vars_toTerm.mpr hx)

theorem mem_aligned_relabel {ρ ρ' : String → String} {l m : Literal} (h : l.Compatible m)
    {p : Term × Term} :
    p ∈ (l.subst (relabel ρ)).aligned (m.subst (relabel ρ')) ↔
      ∃ q ∈ l.aligned m, (q.1.subst (relabel ρ), q.2.subst (relabel ρ')) = p := by
  rw [aligned_eq (compatible_relabel.mpr h), aligned_eq h, toTerm_subst, toTerm_subst,
    Term.mem_aligned_relabel]

end Literal

end ClauseInduction
