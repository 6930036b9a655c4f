import ClauseInduction.Literal

/-!
# Clauses

A clause is a finite set of literals.  It lists its literals in the order in which they arrived,
without repetition; inclusion, and equality as sets, do not look at that order.

## Main definitions

- `Clause.ofList`, `Clause.insert`, `Clause.erase`, `Clause.filter`
- `l ∈ C` and `C ⊆ D`, with `Clause.SameLiterals` for equality as sets
- `Clause.size`, `Clause.vars`, `Clause.text`
-/

namespace ClauseInduction

/-- A finite set of literals, in order of arrival. -/
structure Clause where
  literals : List Literal
  nodup : literals.Nodup
deriving DecidableEq

namespace Clause

def empty : Clause :=
  ⟨[], List.nodup_nil⟩

instance : EmptyCollection Clause := ⟨empty⟩

instance : Inhabited Clause := ⟨empty⟩

instance : Membership Literal Clause := ⟨fun C l => l ∈ C.literals⟩

instance (l : Literal) (C : Clause) : Decidable (l ∈ C) :=
  inferInstanceAs (Decidable (l ∈ C.literals))

instance : HasSubset Clause := ⟨fun C D => ∀ l ∈ C.literals, l ∈ D⟩

instance (C D : Clause) : Decidable (C ⊆ D) :=
  inferInstanceAs (Decidable (∀ l ∈ C.literals, l ∈ D))

/-- Adds a literal at the end, unless it is there already. -/
def insert (C : Clause) (l : Literal) : Clause :=
  if h : l ∈ C.literals then C
  else ⟨C.literals ++ [l], List.nodup_append.2 ⟨C.nodup, by simp, by
    intro m hm k hk e
    rw [List.mem_singleton.1 hk] at e
    exact h (e ▸ hm)⟩⟩

/-- The clause of the literals of a list; of equal literals the first keeps its place. -/
def ofList (ls : List Literal) : Clause :=
  ls.foldl insert ∅

def erase (C : Clause) (l : Literal) : Clause :=
  ⟨C.literals.erase l, C.nodup.erase l⟩

def filter (p : Literal → Bool) (C : Clause) : Clause :=
  ⟨C.literals.filter p, C.nodup.filter p⟩

def size (C : Clause) : Nat :=
  C.literals.length

/-- Equality as sets: the same literals, in any order. -/
def SameLiterals (C D : Clause) : Prop :=
  C ⊆ D ∧ D ⊆ C

instance (C D : Clause) : Decidable (SameLiterals C D) :=
  inferInstanceAs (Decidable (_ ∧ _))

def vars (C : Clause) : List String :=
  C.literals.flatMap Literal.vars

def Saturated (C : Clause) : Prop :=
  ∀ l ∈ C, l.Saturated

def Ground (C : Clause) : Prop :=
  C.vars = []

instance : DecidablePred Ground :=
  fun C => inferInstanceAs (Decidable (C.vars = []))

def text (C : Clause) : String :=
  if C.literals = [] then "⊥" else " ∨ ".intercalate (C.literals.map Literal.text)

instance : ToString Clause := ⟨text⟩

/-! ## Membership and size -/

@[ext]
theorem ext {C D : Clause} (h : C.literals = D.literals) : C = D := by
  cases C
  cases D
  simpa using h

theorem mem_def {l : Literal} {C : Clause} : l ∈ C ↔ l ∈ C.literals :=
  Iff.rfl

@[simp]
theorem literals_empty : (∅ : Clause).literals = [] :=
  rfl

@[simp]
theorem not_mem_empty (l : Literal) : ¬ l ∈ (∅ : Clause) := by
  intro h
  cases h

@[simp]
theorem mem_insert {C : Clause} {l m : Literal} : m ∈ C.insert l ↔ m ∈ C ∨ m = l := by
  simp only [insert, mem_def]
  split
  · rename_i h
    constructor
    · exact Or.inl
    · rintro (hm | rfl)
      · exact hm
      · exact h
  · simp

theorem literals_insert_of_not_mem {C : Clause} {l : Literal} (h : ¬ l ∈ C) :
    (C.insert l).literals = C.literals ++ [l] := by
  simp only [insert]
  rw [dif_neg (show ¬ l ∈ C.literals from h)]

theorem mem_foldl_insert {ls : List Literal} {C : Clause} {m : Literal} :
    m ∈ ls.foldl insert C ↔ m ∈ C ∨ m ∈ ls := by
  induction ls generalizing C with
  | nil => simp
  | cons l ls ih => simp [ih, or_assoc]

@[simp]
theorem mem_ofList {ls : List Literal} {m : Literal} : m ∈ ofList ls ↔ m ∈ ls := by
  simp [ofList, mem_foldl_insert]

theorem literals_foldl_insert {ls : List Literal} {C : Clause}
    (h : (C.literals ++ ls).Nodup) : (ls.foldl insert C).literals = C.literals ++ ls := by
  induction ls generalizing C with
  | nil => simp
  | cons l ls ih =>
      have hl : ¬ l ∈ C := by
        intro hl
        exact (List.nodup_append.1 h).2.2 l hl l (by simp) rfl
      have e : (C.insert l).literals ++ ls = C.literals ++ l :: ls := by
        simp [literals_insert_of_not_mem hl]
      rw [List.foldl_cons, ih (by rw [e]; exact h), e]

theorem literals_ofList {ls : List Literal} (h : ls.Nodup) : (ofList ls).literals = ls := by
  simpa [ofList] using literals_foldl_insert (C := ∅) (by simpa using h)

@[simp]
theorem ofList_literals (C : Clause) : ofList C.literals = C :=
  ext (literals_ofList C.nodup)

@[simp]
theorem mem_erase {C : Clause} {l m : Literal} : m ∈ C.erase l ↔ m ∈ C ∧ m ≠ l := by
  simp [mem_def, erase, C.nodup.mem_erase_iff, and_comm]

@[simp]
theorem mem_filter {p : Literal → Bool} {C : Clause} {m : Literal} :
    m ∈ C.filter p ↔ m ∈ C ∧ p m = true := by
  simp [mem_def, filter]

theorem size_erase_of_mem {C : Clause} {l : Literal} (h : l ∈ C) :
    (C.erase l).size = C.size - 1 :=
  List.length_erase_of_mem h

theorem mem_vars {C : Clause} {x : String} :
    x ∈ C.vars ↔ ∃ l ∈ C, x ∈ l.vars := by
  simp [vars, mem_def]

end Clause

end ClauseInduction
