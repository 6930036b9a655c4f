import ClauseInduction.Literal

/-!
# Taxonomies

A taxonomy is a forest of constants, given by `isa(child, parent)` facts.  Every constant has at
most one parent and no parent chain returns to its start; constants that no fact mentions are
roots of their own.

## Main definitions

- `ParentMap`, edges with at most one parent per node, in order of arrival
- `ParentMap.cycle?`, the search for a parent chain without end
- `Taxonomy`, a parent map that the search accepts, and `Taxonomy.ofFacts`
-/

namespace ClauseInduction

/-! ## Parent maps -/

/-- Edges from a node to its parent, at most one for each node, in order of arrival. -/
structure ParentMap where
  edges : List (String × String)
  single : (edges.map Prod.fst).Nodup

namespace ParentMap

def empty : ParentMap :=
  ⟨[], List.nodup_nil⟩

instance : EmptyCollection ParentMap := ⟨empty⟩

def parent? (m : ParentMap) (c : String) : Option String :=
  m.edges.lookup c

theorem parent?_eq_none_iff {m : ParentMap} {c : String} :
    m.parent? c = none ↔ ¬ c ∈ m.edges.map Prod.fst := by
  simp only [parent?, List.lookup_eq_none_iff, List.mem_map]
  constructor
  · rintro h ⟨e, he, rfl⟩
    exact bne_iff_ne.1 (h e he) rfl
  · intro h e he
    exact bne_iff_ne.2 (fun hc => h ⟨e, he, hc.symm⟩)

def insert (m : ParentMap) (child parent : String) (h : m.parent? child = none) : ParentMap :=
  ⟨m.edges ++ [(child, parent)], by
    rw [List.map_append]
    refine List.nodup_append.2 ⟨m.single, by simp, ?_⟩
    intro c hc d hd e
    have hd : d = child := by simpa using hd
    exact parent?_eq_none_iff.1 h (hd ▸ e ▸ hc)⟩

def chainWithin (m : ParentMap) : Nat → String → List String
  | 0, c => [c]
  | n + 1, c =>
      match m.parent? c with
      | some p => c :: m.chainWithin n p
      | none => [c]

/-- Climbs from a node and collects the nodes passed, up to a root or to a node in `rooted`;
the fault is a node that the climb meets twice.  A climb passes each node that has a parent at
most once, so as many steps as there are edges, and one for the root, are enough. -/
def climb (m : ParentMap) (rooted : List String) :
    Nat → List String → String → Except String (List String)
  | 0, _, c => .error c
  | n + 1, path, c =>
      if c ∈ rooted then .ok path
      else if c ∈ path then .error c
      else
        match m.parent? c with
        | some p => m.climb rooted n (c :: path) p
        | none => .ok (c :: path)

/-- Climbs from each start in turn.  The nodes that a climb has passed are known to reach a
root, and later climbs stop at them. -/
def cycleFrom? (m : ParentMap) : List String → List String → Option String
  | [], _ => none
  | c :: starts, rooted =>
      match m.climb rooted (m.edges.length + 1) [] c with
      | .error d => some d
      | .ok path => m.cycleFrom? starts (path ++ rooted)

def cycle? (m : ParentMap) : Option String :=
  m.cycleFrom? (m.edges.map Prod.fst) []

end ParentMap

/-! ## Faults -/

inductive TaxonomyError where
  | notPositiveIsa (fact : Literal)
  | notTwoConstants (fact : Literal)
  | ownParent (node : String)
  | twoParents (child first second : String)
  | cycle (node : String)
deriving DecidableEq

namespace TaxonomyError

def InvalidFact : TaxonomyError → Prop
  | notPositiveIsa _ => True
  | notTwoConstants _ => True
  | _ => False

instance : DecidablePred InvalidFact
  | notPositiveIsa _ => isTrue trivial
  | notTwoConstants _ => isTrue trivial
  | ownParent _ => isFalse id
  | twoParents _ _ _ => isFalse id
  | cycle _ => isFalse id

def message : TaxonomyError → String
  | notPositiveIsa fact =>
      "Invalid taxonomy fact: expected a positive isa/2 literal, found " ++ fact.text
  | notTwoConstants fact =>
      "Invalid taxonomy fact: expected two constant arguments, found " ++ fact.text
  | ownParent node => "Malformed taxonomy: '" ++ node ++ "' is its own parent"
  | twoParents child first second =>
      "Malformed taxonomy: '" ++ child ++ "' has two parents, '" ++ first ++ "' and '" ++
        second ++ "'"
  | cycle node => "Malformed taxonomy: cycle through '" ++ node ++ "'"

end TaxonomyError

/-! ## Taxonomies -/

structure Taxonomy extends ParentMap where
  acyclic : toParentMap.cycle? = none

namespace Taxonomy

def empty : Taxonomy :=
  ⟨∅, rfl⟩

instance : EmptyCollection Taxonomy := ⟨empty⟩

instance : Inhabited Taxonomy := ⟨empty⟩

def isaPredicate : String :=
  "isa"

def isa (child parent : String) : Literal :=
  ⟨true, isaPredicate, [.const child, .const parent]⟩

def edgeOfFact (fact : Literal) : Except TaxonomyError (String × String) :=
  if fact.positive ∧ fact.predicate = isaPredicate then
    match fact.args with
    | [.const child, .const parent] => .ok (child, parent)
    | _ => .error (.notTwoConstants fact)
  else .error (.notPositiveIsa fact)

def addEdge (m : ParentMap) (child parent : String) : Except TaxonomyError ParentMap :=
  if child = parent then .error (.ownParent child)
  else
    match h : m.parent? child with
    | some first => if first = parent then .ok m else .error (.twoParents child first parent)
    | none => .ok (m.insert child parent h)

def addFacts : List Literal → ParentMap → Except TaxonomyError ParentMap
  | [], m => .ok m
  | fact :: facts, m =>
      match edgeOfFact fact with
      | .error e => .error e
      | .ok (child, parent) =>
          match addEdge m child parent with
          | .error e => .error e
          | .ok m' => addFacts facts m'

def ofFacts (facts : List Literal) : Except TaxonomyError Taxonomy :=
  match addFacts facts ∅ with
  | .error e => .error e
  | .ok m =>
      match h : m.cycle? with
      | some c => .error (.cycle c)
      | none => .ok ⟨m, h⟩

def size (T : Taxonomy) : Nat :=
  T.edges.length

def chain (T : Taxonomy) (c : String) : List String :=
  T.chainWithin T.size c

def depth (T : Taxonomy) (c : String) : Nat :=
  (T.chain c).length - 1

end Taxonomy

end ClauseInduction
