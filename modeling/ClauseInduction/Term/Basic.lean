/-!
# Terms

First-order terms over named variables, named constants and function symbols.  A function symbol
carries its arity as part of its identity, next to the list of arguments it is applied to; in a
*saturated* term the two agree.

## Main definitions

- `Term`, with the induction principle `Term.recOn_args`
- `Term.subst`, the simultaneous replacement of variables
- `Term.vars`, the occurrences of variables from left to right
- `Term.SameShape`, two applications of one symbol to equally many arguments
-/

namespace ClauseInduction

structure FunctionSymbol where
  name : String
  arity : Nat
deriving DecidableEq

inductive Term where
  | var (name : String)
  | const (name : String)
  | app (symbol : FunctionSymbol) (args : List Term)

namespace Term

instance : Inhabited Term := ⟨const ""⟩

/-! ## Equality and induction -/

mutual

def decEq : (s t : Term) → Decidable (s = t)
  | var x, var y =>
      if h : x = y then isTrue (congrArg var h) else isFalse (fun e => h (var.inj e))
  | const c, const d =>
      if h : c = d then isTrue (congrArg const h) else isFalse (fun e => h (const.inj e))
  | app f ss, app g ts =>
      if h : f = g then
        match decEqList ss ts with
        | isTrue hs => isTrue (by rw [h, hs])
        | isFalse hs => isFalse (fun e => hs (app.inj e).2)
      else isFalse (fun e => h (app.inj e).1)
  | var _, const _ => isFalse nofun
  | var _, app _ _ => isFalse nofun
  | const _, var _ => isFalse nofun
  | const _, app _ _ => isFalse nofun
  | app _ _, var _ => isFalse nofun
  | app _ _, const _ => isFalse nofun

def decEqList : (ss ts : List Term) → Decidable (ss = ts)
  | [], [] => isTrue rfl
  | [], _ :: _ => isFalse nofun
  | _ :: _, [] => isFalse nofun
  | s :: ss, t :: ts =>
      match decEq s t with
      | isTrue h =>
          match decEqList ss ts with
          | isTrue hs => isTrue (by rw [h, hs])
          | isFalse hs => isFalse (fun e => hs (List.cons.inj e).2)
      | isFalse h => isFalse (fun e => h (List.cons.inj e).1)

end

instance : DecidableEq Term := decEq

/-- Structural induction on terms: for an application the statement may be assumed of every
argument. -/
@[elab_as_elim, induction_eliminator]
theorem recOn_args {motive : Term → Prop}
    (var : ∀ x, motive (.var x)) (const : ∀ c, motive (.const c))
    (app : ∀ f args, (∀ t ∈ args, motive t) → motive (.app f args)) (t : Term) : motive t :=
  @Term.rec motive (fun args => ∀ t ∈ args, motive t) var const app
    (fun _ ht => nomatch ht)
    (fun _ _ h hs => List.forall_mem_cons.2 ⟨h, hs⟩) t

/-! ## Substitution -/

mutual

/-- Replaces every variable by its image, all at once; symbols stay as they are. -/
def subst (σ : String → Term) : Term → Term
  | var x => σ x
  | const c => const c
  | app f args => app f (substList σ args)

def substList (σ : String → Term) : List Term → List Term
  | [] => []
  | t :: ts => subst σ t :: substList σ ts

end

@[simp]
theorem substList_eq_map (σ : String → Term) (ts : List Term) :
    substList σ ts = ts.map (subst σ) := by
  induction ts with
  | nil => rfl
  | cons t ts ih => simp [substList, ih]

@[simp]
theorem subst_var (t : Term) : t.subst var = t := by
  induction t with
  | var x => rfl
  | const c => rfl
  | app f args ih => simpa [subst] using (List.map_congr_left ih).trans (List.map_id _)

theorem subst_subst (σ τ : String → Term) (t : Term) :
    (t.subst σ).subst τ = t.subst (fun x => (σ x).subst τ) := by
  induction t with
  | var x => rfl
  | const c => rfl
  | app f args ih => simpa [subst] using ih

/-! ## Variables -/

mutual

def vars : Term → List String
  | var x => [x]
  | const _ => []
  | app _ args => varsList args

def varsList : List Term → List String
  | [] => []
  | t :: ts => vars t ++ varsList ts

end

theorem varsList_eq_flatMap (ts : List Term) :
    varsList ts = ts.flatMap vars := by
  induction ts with
  | nil => rfl
  | cons t ts ih => simp [varsList, ih]

theorem subst_congr {σ τ : String → Term} {t : Term} (h : ∀ x ∈ t.vars, σ x = τ x) :
    t.subst σ = t.subst τ := by
  induction t with
  | var x => exact h x (by simp [vars])
  | const c => rfl
  | app f args ih =>
      simp only [subst, substList_eq_map, app.injEq, true_and]
      apply List.map_congr_left
      intro t ht
      apply ih t ht
      intro x hx
      apply h
      simpa [vars, varsList_eq_flatMap] using ⟨t, ht, hx⟩

/-! ## Shape -/

/-- Two applications of one symbol to equally many arguments: what generalization descends
into. -/
def SameShape : Term → Term → Prop
  | app f ss, app g ts => f = g ∧ ss.length = ts.length
  | _, _ => False

instance : (s t : Term) → Decidable (SameShape s t)
  | app f ss, app g ts => inferInstanceAs (Decidable (f = g ∧ ss.length = ts.length))
  | var _, _ => isFalse nofun
  | const _, _ => isFalse nofun
  | app _ _, var _ => isFalse nofun
  | app _ _, const _ => isFalse nofun

mutual

/-- Every symbol in the term is applied to as many arguments as it is declared for. -/
def Saturated : Term → Prop
  | var _ => True
  | const _ => True
  | app f args => f.arity = args.length ∧ SaturatedList args

def SaturatedList : List Term → Prop
  | [] => True
  | t :: ts => Saturated t ∧ SaturatedList ts

end

theorem saturatedList_iff {ts : List Term} : SaturatedList ts ↔ ∀ t ∈ ts, Saturated t := by
  induction ts with
  | nil => simp [SaturatedList]
  | cons t ts ih => simp [SaturatedList, ih]

/-! ## Written form -/

mutual

def text : Term → String
  | var x => x
  | const c => c
  | app f args => f.name ++ "(" ++ ",".intercalate (textList args) ++ ")"

def textList : List Term → List String
  | [] => []
  | t :: ts => text t :: textList ts

end

instance : ToString Term := ⟨text⟩

end Term

end ClauseInduction
