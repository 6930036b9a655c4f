import Mathlib.Data.Set.Function
import ClauseInduction.Clause

/-!
# Substitutions and renamings

Facts about substitution that the searches, the reduction and the generalization share: a
substitution is determined by what it does to the variables that occur, the variables of an
instance come from the images, and a renaming, which sends variables to variables, keeps shapes.
-/

namespace ClauseInduction

def relabel (ρ : String → String) (x : String) : Term :=
  .var (ρ x)

def InjectiveOn (ρ : String → String) (xs : List String) : Prop :=
  ∀ x ∈ xs, ∀ y ∈ xs, ρ x = ρ y → x = y

theorem InjectiveOn.exists_inverse {ρ : String → String} {xs : List String}
    (h : InjectiveOn ρ xs) : ∃ ρ' : String → String, ∀ x ∈ xs, ρ' (ρ x) = x := by
  have hinjOn : Set.InjOn ρ { x | x ∈ xs } := fun x hx y hy hxy => h x hx y hy hxy
  exact ⟨Function.invFunOn ρ { x | x ∈ xs }, fun x hx => hinjOn.leftInvOn_invFunOn hx⟩

namespace Term

/-!
# Occurring variables
-/

theorem mem_vars_app {f : FunctionSymbol} {args : List Term} {x : String} :
    x ∈ (app f args).vars ↔ ∃ t ∈ args, x ∈ t.vars := by
  simp [vars, varsList_eq_flatMap]

theorem subst_app (σ : String → Term) (f : FunctionSymbol) (args : List Term) :
    (app f args).subst σ = app f (args.map (subst σ)) := by
  simp [subst]

theorem subst_eq_subst_iff {σ τ : String → Term} {t : Term} :
    t.subst σ = t.subst τ ↔ ∀ x ∈ t.vars, σ x = τ x := by
  constructor
  · intro h
    induction t with
    | var y =>
        intro x hx
        rw [List.mem_singleton.mp hx]
        exact h
    | const c =>
        intro x hx
        cases hx
    | app f args ih =>
        intro x hx
        rcases mem_vars_app.mp hx with ⟨t, ht, hxt⟩
        rw [subst_app, subst_app] at h
        have hargs : args.map (subst σ) = args.map (subst τ) := (app.inj h).right
        exact ih t ht (List.map_inj_left.mp hargs t ht) x hxt
  · exact subst_congr

theorem mem_vars_subst {σ : String → Term} {t : Term} {y : String} :
    y ∈ (t.subst σ).vars ↔ ∃ x ∈ t.vars, y ∈ (σ x).vars := by
  induction t with
  | var x => simp [subst, vars]
  | const c => simp [subst, vars]
  | app f args ih =>
      rw [subst_app, mem_vars_app]
      constructor
      · intro h
        rcases h with ⟨u, hu, hy⟩
        rcases List.mem_map.mp hu with ⟨t, ht, rfl⟩
        rcases (ih t ht).mp hy with ⟨x, hx, hyx⟩
        exact ⟨x, mem_vars_app.mpr ⟨t, ht, hx⟩, hyx⟩
      · intro h
        rcases h with ⟨x, hx, hyx⟩
        rcases mem_vars_app.mp hx with ⟨t, ht, hxt⟩
        exact ⟨t.subst σ, List.mem_map_of_mem ht, (ih t ht).mpr ⟨x, hxt, hyx⟩⟩

theorem subst_relabel_subst_relabel {ρ ρ' : String → String} {t : Term}
    (h : ∀ x ∈ t.vars, ρ' (ρ x) = x) : (t.subst (relabel ρ)).subst (relabel ρ') = t := by
  calc (t.subst (relabel ρ)).subst (relabel ρ')
      = t.subst fun x => (relabel ρ x).subst (relabel ρ') := subst_subst _ _ t
    _ = t.subst var := subst_congr fun x hx => congrArg var (h x hx)
    _ = t := subst_var t

theorem eq_var_of_subst_eq_var {t : Term} {θ : String → Term} {x : String}
    (h : t.subst θ = var x) : ∃ y, t = var y := by
  cases t with
  | var y => exact ⟨y, rfl⟩
  | const c => cases h
  | app f args => cases h

theorem eq_of_subst_relabel_eq {ρ : String → String} {s t : Term} {xs : List String}
    (hρ : InjectiveOn ρ xs) (hs : s.vars ⊆ xs) (ht : t.vars ⊆ xs)
    (h : s.subst (relabel ρ) = t.subst (relabel ρ)) : s = t := by
  rcases hρ.exists_inverse with ⟨ρ', hundo⟩
  calc s = (s.subst (relabel ρ)).subst (relabel ρ') :=
        (subst_relabel_subst_relabel fun x hx => hundo x (hs hx)).symm
    _ = (t.subst (relabel ρ)).subst (relabel ρ') := by rw [h]
    _ = t := subst_relabel_subst_relabel fun x hx => hundo x (ht hx)

theorem subst_eq_self {t : Term} (h : t.vars = []) (σ : String → Term) : t.subst σ = t := by
  calc t.subst σ = t.subst var := by
        apply subst_congr
        intro x hx
        rw [h] at hx
        cases hx
    _ = t := subst_var t

theorem eq_of_subst_relabel_eq_ground {ρ : String → String} {s t : Term} (ht : t.vars = [])
    (h : s.subst (relabel ρ) = t) : s = t := by
  have hs : s.vars = [] := by
    rw [List.eq_nil_iff_forall_not_mem]
    intro x hx
    have hx' : ρ x ∈ (s.subst (relabel ρ)).vars :=
      mem_vars_subst.mpr ⟨x, hx, List.mem_singleton.mpr rfl⟩
    rw [h, ht] at hx'
    cases hx'
  exact (subst_eq_self hs _).symm.trans h

theorem exists_relabel_of_undo {σ θ : String → Term} {xs : List String}
    (h : ∀ x ∈ xs, (σ x).subst θ = var x) :
    ∃ ρ, InjectiveOn ρ xs ∧ ∀ x ∈ xs, σ x = relabel ρ x := by
  have hvar : ∀ x, ∃ y, x ∈ xs → σ x = var y := by
    intro x
    by_cases hx : x ∈ xs
    · rcases eq_var_of_subst_eq_var (h x hx) with ⟨y, hy⟩
      exact ⟨y, fun _ => hy⟩
    · exact ⟨x, fun hx' => absurd hx' hx⟩
  choose ρ hρ using hvar
  refine ⟨ρ, ?_, hρ⟩
  intro x hx y hy hxy
  have hσ : σ x = σ y := by rw [hρ x hx, hρ y hy, hxy]
  exact var.inj ((h x hx).symm.trans (hσ ▸ h y hy))

theorem sameShape_subst_relabel {ρ ρ' : String → String} {s t : Term} :
    SameShape (s.subst (relabel ρ)) (t.subst (relabel ρ')) ↔ SameShape s t := by
  cases s <;> cases t <;> simp [subst, relabel, SameShape]

end Term

namespace Literal

theorem mem_vars {l : Literal} {x : String} : x ∈ l.vars ↔ ∃ t ∈ l.args, x ∈ t.vars := by
  simp [vars]

theorem subst_eq_subst_iff {σ τ : String → Term} {l : Literal} :
    l.subst σ = l.subst τ ↔ ∀ x ∈ l.vars, σ x = τ x := by
  constructor
  · intro h x hx
    rcases mem_vars.mp hx with ⟨t, ht, hxt⟩
    have hargs : l.args.map (Term.subst σ) = l.args.map (Term.subst τ) :=
      congrArg Literal.args h
    exact Term.subst_eq_subst_iff.mp (List.map_inj_left.mp hargs t ht) x hxt
  · exact subst_congr

theorem mem_vars_subst {σ : String → Term} {l : Literal} {y : String} :
    y ∈ (l.subst σ).vars ↔ ∃ x ∈ l.vars, y ∈ (σ x).vars := by
  simp only [mem_vars, subst, List.mem_map]
  constructor
  · intro h
    rcases h with ⟨u, ⟨t, ht, rfl⟩, hy⟩
    rcases Term.mem_vars_subst.mp hy with ⟨x, hx, hyx⟩
    exact ⟨x, ⟨t, ht, hx⟩, hyx⟩
  · intro h
    rcases h with ⟨x, ⟨t, ht, hx⟩, hyx⟩
    exact ⟨t.subst σ, ⟨t, ht, rfl⟩, Term.mem_vars_subst.mpr ⟨x, hx, hyx⟩⟩

theorem Comparable.symm {l m : Literal} (h : l.Comparable m) : m.Comparable l :=
  ⟨h.left.symm, h.right.symm⟩

theorem subst_eq_iff {σ : String → Term} {l m : Literal} :
    l.subst σ = m ↔ l.Comparable m ∧ l.args.map (Term.subst σ) = m.args := by
  cases l
  cases m
  simp [subst, Comparable, and_assoc]

theorem compatible_subst_subst (σ τ : String → Term) (l : Literal) :
    (l.subst σ).Compatible (l.subst τ) := by
  simp [Compatible, Comparable, subst, arity]

theorem subst_relabel_relabel (ρ τ : String → String) (l : Literal) :
    (l.subst (relabel ρ)).subst (relabel τ) = l.subst (relabel fun x => τ (ρ x)) :=
  subst_subst (relabel ρ) (relabel τ) l

theorem subst_relabel_subst_relabel {ρ ρ' : String → String} {l : Literal}
    (h : ∀ x ∈ l.vars, ρ' (ρ x) = x) : (l.subst (relabel ρ)).subst (relabel ρ') = l := by
  calc (l.subst (relabel ρ)).subst (relabel ρ')
      = l.subst fun x => (relabel ρ x).subst (relabel ρ') := subst_subst _ _ l
    _ = l.subst .var := subst_congr fun x hx => congrArg Term.var (h x hx)
    _ = l := subst_var l

end Literal

theorem Clause.Ground.subst_eq {C : Clause} (h : C.Ground) {l : Literal} (hl : l ∈ C)
    (σ : String → Term) : l.subst σ = l := by
  calc l.subst σ = l.subst .var := by
        apply Literal.subst_congr
        intro x hx
        have hxC : x ∈ C.vars := Clause.mem_vars.mpr ⟨l, hl, hx⟩
        rw [h] at hxC
        cases hxC
    _ = l := l.subst_var

end ClauseInduction
