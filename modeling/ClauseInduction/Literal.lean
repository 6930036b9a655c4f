import ClauseInduction.Term.Order

/-!
# Literals

A literal is an atom, that is a predicate applied to terms, with a sign.  A predicate is
identified by its name alone, so one name may be used with several arities.

## Main definitions

- `Literal.Comparable`: same sign and predicate, so that the two can be generalized together
- `Literal.Compatible`: comparable and of one arity, so that one can be mapped onto the other
-/

namespace ClauseInduction

structure Literal where
  positive : Bool
  predicate : String
  args : List Term
deriving DecidableEq

namespace Literal

def arity (l : Literal) : Nat :=
  l.args.length

def Comparable (l m : Literal) : Prop :=
  l.positive = m.positive ∧ l.predicate = m.predicate

instance (l m : Literal) : Decidable (Comparable l m) :=
  inferInstanceAs (Decidable (_ ∧ _))

def Compatible (l m : Literal) : Prop :=
  l.Comparable m ∧ l.arity = m.arity

instance (l m : Literal) : Decidable (Compatible l m) :=
  inferInstanceAs (Decidable (_ ∧ _))

def subst (σ : String → Term) (l : Literal) : Literal :=
  { l with args := l.args.map (Term.subst σ) }

def vars (l : Literal) : List String :=
  l.args.flatMap Term.vars

def Saturated (l : Literal) : Prop :=
  ∀ t ∈ l.args, t.Saturated

/-! ## Substitution -/

@[simp]
theorem subst_var (l : Literal) : l.subst .var = l := by
  have h : l.args.map (Term.subst .var) = l.args :=
    (List.map_congr_left fun t _ => t.subst_var).trans (List.map_id _)
  simp [subst, h]

theorem subst_subst (σ τ : String → Term) (l : Literal) :
    (l.subst σ).subst τ = l.subst (fun x => (σ x).subst τ) := by
  simp [subst, Term.subst_subst]

theorem compatible_subst (σ : String → Term) (l : Literal) : l.Compatible (l.subst σ) := by
  simp [Compatible, Comparable, subst, arity]

theorem subst_congr {σ τ : String → Term} {l : Literal} (h : ∀ x ∈ l.vars, σ x = τ x) :
    l.subst σ = l.subst τ := by
  simp only [subst, mk.injEq, true_and]
  apply List.map_congr_left
  intro t ht
  apply Term.subst_congr
  intro x hx
  exact h x (List.mem_flatMap.2 ⟨t, ht, hx⟩)

/-! ## Order and written form -/

/-- The order of literals: by predicate, then by arguments, denied before asserted. -/
protected def compare (l m : Literal) : Ordering :=
  ((compare l.predicate m.predicate).then (Term.compareList l.args m.args)).then
    (compare l.positive m.positive)

instance : Ord Literal := ⟨Literal.compare⟩

def atomText (l : Literal) : String :=
  l.predicate ++ "(" ++ ",".intercalate (l.args.map Term.text) ++ ")"

def text (l : Literal) : String :=
  (if l.positive then "" else "~") ++ l.atomText

instance : ToString Literal := ⟨text⟩

end Literal

end ClauseInduction
