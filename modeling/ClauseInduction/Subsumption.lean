import ClauseInduction.Clause

/-!
# Theta-subsumption

A clause subsumes another when one substitution sends every literal of the first into the second.
`Clause.Subsumes` says so; `Clause.subsumes` decides it by a backtracking search that maps the
literals one after another, those with the fewest possible images first, and threads the
variables bound so far.  There is no search when some literal has no possible image.

## Main definitions

- `Clause.Subsumes`, the relation
- `Term.match?`, `Literal.match?`, one-way matching that extends a list of bindings
- `Clause.subsumes`, the search
-/

namespace ClauseInduction

/-- The relation that theta-subsumption decides: some substitution sends every literal of `C`
into `D`. -/
def Clause.Subsumes (C D : Clause) : Prop :=
  ∃ σ : String → Term, ∀ l ∈ C, l.subst σ ∈ D

/-! ## Matching -/

abbrev Bindings := List (String × Term)

/-- The substitution that a list of bindings stands for; a variable without binding stays. -/
def Bindings.toSubst (b : Bindings) (x : String) : Term :=
  (b.lookup x).getD (.var x)

namespace Term

mutual

/-- Extends the bindings so that the first term becomes the second, if that is possible.  The
variables of the second term stand for themselves. -/
def match? : Term → Term → Bindings → Option Bindings
  | var x, t, b =>
      match b.lookup x with
      | some u => if u = t then some b else none
      | none => some ((x, t) :: b)
  | const c, t, b => if t = const c then some b else none
  | app f ss, app g ts, b => if f = g then matchList? ss ts b else none
  | app _ _, var _, _ => none
  | app _ _, const _, _ => none

def matchList? : List Term → List Term → Bindings → Option Bindings
  | [], [], b => some b
  | s :: ss, t :: ts, b =>
      match match? s t b with
      | some b' => matchList? ss ts b'
      | none => none
  | [], _ :: _, _ => none
  | _ :: _, [], _ => none

end

end Term

def Literal.match? (l m : Literal) (b : Bindings) : Option Bindings :=
  if l.Comparable m then Term.matchList? l.args m.args b else none

/-! ## The search -/

namespace Clause

def candidates (D : Clause) (l : Literal) : List Literal :=
  D.literals.filter (fun m => l.Compatible m)

/-- Puts an entry before the first one that has no fewer candidates. -/
def insertByCount (x : Literal × List Literal) :
    List (Literal × List Literal) → List (Literal × List Literal)
  | [] => [x]
  | y :: ys => if x.2.length ≤ y.2.length then x :: y :: ys else y :: insertByCount x ys

def ranked (C D : Clause) : List (Literal × List Literal) :=
  (C.literals.map (fun l => (l, D.candidates l))).foldr insertByCount []

/-- Some choice of candidates, one for each literal, extends the bindings consistently. -/
def embeds : List (Literal × List Literal) → Bindings → Bool
  | [], _ => true
  | (l, candidates) :: rest, b =>
      candidates.any (fun m =>
        match l.match? m b with
        | some b' => embeds rest b'
        | none => false)

/-- A literal without candidates ends the search before it begins. -/
def subsumes (C D : Clause) : Bool :=
  let goals := ranked C D
  !goals.any (fun goal => goal.2.isEmpty) && embeds goals []

end Clause

/-! ## The relation is a preorder -/

namespace Clause

theorem Subsumes.refl (C : Clause) : C.Subsumes C :=
  ⟨.var, fun l hl => by rwa [Literal.subst_var]⟩

theorem Subsumes.of_subset {C D : Clause} (h : C ⊆ D) : C.Subsumes D :=
  ⟨.var, fun l hl => by
    rw [Literal.subst_var]
    exact h l hl⟩

theorem Subsumes.trans {C D E : Clause} (h : C.Subsumes D) (k : D.Subsumes E) :
    C.Subsumes E := by
  obtain ⟨σ, hσ⟩ := h
  obtain ⟨τ, hτ⟩ := k
  refine ⟨fun x => (σ x).subst τ, fun l hl => ?_⟩
  rw [← Literal.subst_subst]
  exact hτ _ (hσ l hl)

end Clause

end ClauseInduction
