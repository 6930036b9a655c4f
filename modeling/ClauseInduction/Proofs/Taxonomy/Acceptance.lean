import Mathlib.Data.List.Dedup
import ClauseInduction.Proofs.Taxonomy.Forest

/-!
# Which facts are accepted

The search for cycles climbs from each node that has a parent, in some order, and a climb stops early
at nodes that an earlier one has passed.  It finds a cycle exactly if there is one, whatever the
order: a climb that comes back to a node has gone round, and a climb that stops has only passed nodes
that reach a root.  Facts are therefore accepted exactly if they describe a forest.
-/

namespace ClauseInduction

namespace ParentMap

variable {m : ParentMap}

def OnCycle (m : ParentMap) (c : String) : Prop :=
  Relation.TransGen (fun c p => m.parent? c = some p) c c

/-!
# One climb
-/

/-- How a climb ends that has passed the nodes in `path`: at a node that is known to reach a root, at
a node that it has passed, or at a root. -/
inductive ClimbEnds (m : ParentMap) (rooted : List String) :
    List String → String → Except String (List String) → Prop where
  | known {path : List String} {c : String} (hrooted : c ∈ rooted) :
      ClimbEnds m rooted path c (.ok path)
  | again {path : List String} {c : String} (hrooted : c ∉ rooted) (hpath : c ∈ path) :
      ClimbEnds m rooted path c (.error c)
  | root {path : List String} {c : String} (hrooted : c ∉ rooted) (hpath : c ∉ path)
      (hroot : m.parent? c = none) : ClimbEnds m rooted path c (.ok (c :: path))
  | up {path : List String} {c p : String} {result : Except String (List String)}
      (hrooted : c ∉ rooted) (hpath : c ∉ path) (hp : m.parent? c = some p)
      (h : ClimbEnds m rooted (c :: path) p result) : ClimbEnds m rooted path c result

/-- The nodes passed are different children of edges, so the steps suffice, on a cycle as well. -/
theorem climbEnds_climb {rooted path : List String} {n : Nat} {c : String} (hnodup : path.Nodup)
    (hchildren : path ⊆ m.edges.map Prod.fst) (hn : m.edges.length < n + path.length) :
    m.ClimbEnds rooted path c (m.climb rooted n path c) := by
  induction n generalizing path c with
  | zero =>
      have hlength := (hnodup.subperm hchildren).length_le
      rw [List.length_map] at hlength
      omega
  | succ n ih =>
      rw [climb]
      by_cases hrooted : c ∈ rooted
      · rw [if_pos hrooted]
        exact .known hrooted
      · rw [if_neg hrooted]
        by_cases hpath : c ∈ path
        · rw [if_pos hpath]
          exact .again hrooted hpath
        · rw [if_neg hpath]
          cases hp : m.parent? c with
          | none => exact .root hrooted hpath hp
          | some p =>
              have hchild : c ∈ m.edges.map Prod.fst := by
                by_contra hc
                rw [parent?_eq_none_iff.mpr hc] at hp
                cases hp
              refine .up hrooted hpath hp (ih (List.nodup_cons.mpr ⟨hpath, hnodup⟩) ?_ ?_)
              · exact List.cons_subset.mpr ⟨hchild, hchildren⟩
              · rw [List.length_cons]
                omega

theorem climbEnds_climb_start (m : ParentMap) (rooted : List String) (c : String) :
    m.ClimbEnds rooted [] c (m.climb rooted (m.edges.length + 1) [] c) :=
  climbEnds_climb List.nodup_nil (List.nil_subset _) (by simp)

theorem ClimbEnds.onCycle {rooted path : List String} {c d : String}
    (h : m.ClimbEnds rooted path c (.error d))
    (hpath : ∀ x ∈ path, Relation.TransGen (fun c p => m.parent? c = some p) x c) :
    m.Climbs c d ∧ m.OnCycle d := by
  generalize hresult : (.error d : Except String (List String)) = result at h
  induction h with
  | known hrooted => cases hresult
  | again hrooted hmem =>
      cases hresult
      exact ⟨.refl, hpath _ hmem⟩
  | root hrooted hmem hroot => cases hresult
  | @up path c p result hrooted hmem hp h ih =>
      have hpassed : ∀ x ∈ c :: path,
          Relation.TransGen (fun c p => m.parent? c = some p) x p := by
        intro x hx
        rcases List.mem_cons.mp hx with rfl | hx
        · exact .single hp
        · exact (hpath x hx).tail hp
      rcases ih hpassed hresult with ⟨hclimbs, hcycle⟩
      exact ⟨.head hp hclimbs, hcycle⟩

/-!
# Depths and cycles
-/

theorem AtDepth.exists_lt {n : Nat} {c d : String} (h : m.AtDepth n c)
    (hcd : Relation.TransGen (fun c p => m.parent? c = some p) c d) :
    ∃ k < n, m.AtDepth k d := by
  have hparent : ∀ {n : Nat} {c p : String}, m.AtDepth n c → m.parent? c = some p →
      ∃ k < n, m.AtDepth k p := by
    intro n c p h hp
    cases n with
    | zero => cases h.symm.trans hp
    | succ n =>
        rcases h with ⟨q, hq, hn⟩
        cases hq.symm.trans hp
        exact ⟨n, Nat.lt_succ_self n, hn⟩
  induction hcd with
  | single hp => exact hparent h hp
  | tail _ hp ih =>
      rcases ih with ⟨k, hkn, hk⟩
      rcases hparent hk hp with ⟨j, hjk, hj⟩
      exact ⟨j, Nat.lt_trans hjk hkn, hj⟩

theorem AtDepth.not_onCycle {n : Nat} {c : String} (h : m.AtDepth n c) : ¬ m.OnCycle c := by
  intro hcycle
  rcases h.exists_lt hcycle with ⟨k, hkn, hk⟩
  exact absurd (hk.unique h) (Nat.ne_of_lt hkn)

theorem AtDepth.of_climbs {n : Nat} {c d : String} (h : m.AtDepth n c) (hcd : m.Climbs c d) :
    ∃ k, m.AtDepth k d := by
  rcases Relation.reflTransGen_iff_eq_or_transGen.mp hcd with rfl | htrans
  · exact ⟨n, h⟩
  · rcases h.exists_lt htrans with ⟨k, -, hk⟩
    exact ⟨k, hk⟩

theorem exists_atDepth_iff : (∀ c, ∃ n, m.AtDepth n c) ↔ ∀ c, ¬ m.OnCycle c := by
  constructor
  · intro h c
    rcases h c with ⟨n, hn⟩
    exact hn.not_onCycle
  · intro h c
    have hends := climbEnds_climb_start m [] c
    cases hclimb : m.climb [] (m.edges.length + 1) [] c with
    | ok passed => exact (climb_eq_ok (List.forall_mem_nil _) hclimb).left
    | error d =>
        rw [hclimb] at hends
        exact absurd (hends.onCycle (List.forall_mem_nil _)).right (h d)

/-!
# The search
-/

theorem cycleFrom?_eq_none_iff {starts rooted : List String}
    (hrooted : ∀ d ∈ rooted, ∃ k, m.AtDepth k d) :
    m.cycleFrom? starts rooted = none ↔ ∀ c ∈ starts, ∃ n, m.AtDepth n c := by
  refine ⟨exists_atDepth_of_cycleFrom? hrooted, fun h => ?_⟩
  induction starts generalizing rooted with
  | nil => rfl
  | cons start starts ih =>
      rcases List.forall_mem_cons.mp h with ⟨⟨n, hstart⟩, hstarts⟩
      have hends := climbEnds_climb_start m rooted start
      rw [cycleFrom?]
      cases hclimb : m.climb rooted (m.edges.length + 1) [] start with
      | error d =>
          rw [hclimb] at hends
          rcases hends.onCycle (List.forall_mem_nil _) with ⟨hclimbs, hcycle⟩
          rcases hstart.of_climbs hclimbs with ⟨k, hk⟩
          exact absurd hcycle hk.not_onCycle
      | ok passed =>
          refine ih ?_ hstarts
          intro d hd
          rcases List.mem_append.mp hd with hd | hd
          · exact ((climb_eq_ok hrooted hclimb).right d hd).resolve_left List.not_mem_nil
          · exact hrooted d hd

theorem cycleFrom?_children_eq_none_iff {starts : List String}
    (hstarts : starts.Perm (m.edges.map Prod.fst)) :
    m.cycleFrom? starts [] = none ↔ ∀ c, ¬ m.OnCycle c := by
  rw [cycleFrom?_eq_none_iff (List.forall_mem_nil _), ← exists_atDepth_iff]
  constructor
  · intro h c
    by_cases hc : c ∈ m.edges.map Prod.fst
    · exact h c (hstarts.mem_iff.mpr hc)
    · exact ⟨0, parent?_eq_none_iff.mpr hc⟩
  · intro h c _
    exact h c

/-!
# Edges
-/

theorem parent?_insert {child parent : String} (h : m.parent? child = none) (c : String) :
    (m.insert child parent h).parent? c = if c = child then some parent else m.parent? c := by
  have happend : (m.insert child parent h).parent? c =
      (m.parent? c).or (List.lookup c [(child, parent)]) := List.lookup_append
  rw [happend, List.lookup_cons]
  by_cases hc : c = child
  · rw [if_pos hc, hc, h, beq_self_eq_true]
    rfl
  · rw [if_neg hc, beq_false_of_ne hc]
    exact Option.or_none

theorem mem_edges_iff {c p : String} : (c, p) ∈ m.edges ↔ m.parent? c = some p := by
  constructor
  · intro h
    cases hq : m.parent? c with
    | none => exact absurd (List.mem_map_of_mem h) (parent?_eq_none_iff.mp hq)
    | some q =>
        rcases List.lookup_eq_some_iff.mp hq with ⟨before, after, hedges, -⟩
        have hmem : (c, q) ∈ m.edges := by
          rw [hedges]
          exact List.mem_append_right _ List.mem_cons_self
        cases List.inj_on_of_nodup_map m.single h hmem rfl
        rfl
  · intro h
    rcases List.lookup_eq_some_iff.mp h with ⟨before, after, hedges, -⟩
    rw [hedges]
    exact List.mem_append_right _ List.mem_cons_self

end ParentMap

namespace Taxonomy

/-!
# One fact
-/

theorem edgeOfFact_eq_ok_iff {fact : Literal} {child parent : String} :
    edgeOfFact fact = .ok (child, parent) ↔ fact = isa child parent := by
  constructor
  · intro h
    rcases fact with ⟨positive, predicate, args⟩
    unfold edgeOfFact at h
    by_cases hform : positive = true ∧ predicate = isaPredicate
    · rw [if_pos hform] at h
      rcases hform with ⟨rfl, rfl⟩
      split at h
      · rename_i c p hargs
        cases h
        rw [show args = [.const child, .const parent] from hargs]
        rfl
      · cases h
    · rw [if_neg hform] at h
      cases h
  · intro h
    rw [h]
    rfl

theorem addEdge_eq_ok_iff {m m' : ParentMap} {child parent : String} :
    addEdge m child parent = .ok m' ↔ child ≠ parent ∧
      ((m.parent? child = some parent ∧ m' = m) ∨
        ∃ h : m.parent? child = none, m' = m.insert child parent h) := by
  unfold addEdge
  by_cases hloop : child = parent
  · rw [if_pos hloop]
    simp [hloop]
  · rw [if_neg hloop]
    split
    · rename_i first hfirst
      by_cases hsame : first = parent
      · simp [hloop, hsame, hfirst, eq_comm]
      · simp [hloop, hsame, hfirst]
    · rename_i hnone
      simp [hloop, hnone, eq_comm]

theorem parent?_addEdge {m m' : ParentMap} {child parent : String}
    (h : addEdge m child parent = .ok m') (c p : String) :
    m'.parent? c = some p ↔ m.parent? c = some p ∨ (c = child ∧ p = parent) := by
  rcases (addEdge_eq_ok_iff.mp h).right with ⟨hthere, rfl⟩ | ⟨hnone, rfl⟩
  · constructor
    · exact Or.inl
    · intro hp
      rcases hp with hp | ⟨rfl, rfl⟩
      · exact hp
      · exact hthere
  · rw [ParentMap.parent?_insert]
    by_cases hc : c = child
    · simp [hc, hnone, eq_comm]
    · simp [hc]

/-!
# Many facts
-/

theorem addFacts_spec {facts : List Literal} {m m' : ParentMap} (h : addFacts facts m = .ok m') :
    (∀ fact ∈ facts, ∃ c p, fact = isa c p ∧ c ≠ p) ∧
      ∀ c p, m'.parent? c = some p ↔ m.parent? c = some p ∨ isa c p ∈ facts := by
  induction facts generalizing m with
  | nil =>
      cases h
      simp
  | cons fact facts ih =>
      rw [addFacts] at h
      cases hedge : edgeOfFact fact with
      | error e =>
          rw [hedge] at h
          cases h
      | ok edge =>
          rcases edge with ⟨child, parent⟩
          rw [hedge] at h
          cases hadd : addEdge m child parent with
          | error e =>
              simp only [hadd] at h
              cases h
          | ok m₁ =>
              simp only [hadd] at h
              rcases ih h with ⟨hform, hparent⟩
              have hfact := edgeOfFact_eq_ok_iff.mp hedge
              refine ⟨List.forall_mem_cons.mpr ⟨?_, hform⟩, fun c p => ?_⟩
              · exact ⟨child, parent, hfact, (addEdge_eq_ok_iff.mp hadd).left⟩
              · rw [hparent, parent?_addEdge hadd, hfact, List.mem_cons]
                simp [isa, or_assoc]

theorem exists_addFacts {facts : List Literal} {m : ParentMap}
    (hform : ∀ fact ∈ facts, ∃ c p, fact = isa c p ∧ c ≠ p)
    (hsingle : ∀ c p q, m.parent? c = some p ∨ isa c p ∈ facts →
      m.parent? c = some q ∨ isa c q ∈ facts → p = q) :
    ∃ m', addFacts facts m = .ok m' := by
  induction facts generalizing m with
  | nil => exact ⟨m, rfl⟩
  | cons fact facts ih =>
      rcases List.forall_mem_cons.mp hform with ⟨⟨child, parent, rfl, hne⟩, hrest⟩
      have hadd : ∃ m₁, addEdge m child parent = .ok m₁ := by
        cases hfirst : m.parent? child with
        | none => exact ⟨_, addEdge_eq_ok_iff.mpr ⟨hne, Or.inr ⟨hfirst, rfl⟩⟩⟩
        | some first =>
            have heq : first = parent :=
              hsingle child first parent (Or.inl hfirst) (Or.inr List.mem_cons_self)
            rw [heq] at hfirst
            exact ⟨m, addEdge_eq_ok_iff.mpr ⟨hne, Or.inl ⟨hfirst, rfl⟩⟩⟩
      rcases hadd with ⟨m₁, hadd⟩
      have hedge : edgeOfFact (isa child parent) = .ok (child, parent) := rfl
      simp only [addFacts, hedge, hadd]
      apply ih hrest
      -- an edge of the larger map is an old one or the first fact
      have hwider : ∀ c p, m₁.parent? c = some p ∨ isa c p ∈ facts →
          m.parent? c = some p ∨ isa c p ∈ isa child parent :: facts := by
        intro c p h
        rw [parent?_addEdge hadd] at h
        rcases h with (h | ⟨rfl, rfl⟩) | h
        · exact Or.inl h
        · exact Or.inr List.mem_cons_self
        · exact Or.inr (List.mem_cons_of_mem _ h)
      intro c p q hp hq
      exact hsingle c p q (hwider c p hp) (hwider c q hq)

theorem parent?_addFacts {facts : List Literal} {m : ParentMap} (h : addFacts facts ∅ = .ok m)
    (c p : String) : m.parent? c = some p ↔ isa c p ∈ facts := by
  rw [(addFacts_spec h).right]
  constructor
  · intro hcases
    exact hcases.resolve_left nofun
  · exact Or.inr

theorem size_addFacts {facts : List Literal} {m : ParentMap} (h : addFacts facts ∅ = .ok m) :
    m.edges.length = facts.dedup.length := by
  have hinjective : Function.Injective fun e : String × String => isa e.1 e.2 := by
    rintro ⟨c, p⟩ ⟨d, q⟩ heq
    cases heq
    rfl
  have hnodup : (m.edges.map fun e => isa e.1 e.2).Nodup :=
    m.single.of_map.map hinjective
  have hperm : (m.edges.map fun e => isa e.1 e.2).Perm facts.dedup := by
    rw [List.perm_ext_iff_of_nodup hnodup (List.nodup_dedup facts)]
    intro fact
    rw [List.mem_map, List.mem_dedup]
    constructor
    · rintro ⟨⟨c, p⟩, hedge, rfl⟩
      exact (parent?_addFacts h c p).mp (ParentMap.mem_edges_iff.mp hedge)
    · intro hfact
      rcases (addFacts_spec h).left fact hfact with ⟨c, p, rfl, -⟩
      exact ⟨(c, p), ParentMap.mem_edges_iff.mpr ((parent?_addFacts h c p).mpr hfact), rfl⟩
  rw [← hperm.length_eq, List.length_map]

/-!
# Forests
-/

/-- Every fact is an edge between two constants, no constant has two parents, and no constant can be
reached from itself along one or more edges. -/
structure IsForest (facts : List Literal) : Prop where
  isa : ∀ fact ∈ facts, ∃ c p, fact = isa c p
  single : ∀ c p q, Taxonomy.isa c p ∈ facts → Taxonomy.isa c q ∈ facts → p = q
  acyclic : ∀ c, ¬ Relation.TransGen (fun c p => Taxonomy.isa c p ∈ facts) c c

theorem IsForest.of_mem_iff {facts facts' : List Literal} (h : IsForest facts)
    (hmem : ∀ fact, fact ∈ facts' ↔ fact ∈ facts) : IsForest facts' := by
  refine ⟨fun fact hfact => h.isa fact ((hmem fact).mp hfact), ?_, ?_⟩
  · intro c p q hp hq
    exact h.single c p q ((hmem _).mp hp) ((hmem _).mp hq)
  · simp only [hmem]
    exact h.acyclic

theorem onCycle_iff {facts : List Literal} {m : ParentMap} (h : addFacts facts ∅ = .ok m)
    (c : String) : m.OnCycle c ↔ Relation.TransGen (fun c p => isa c p ∈ facts) c c := by
  unfold ParentMap.OnCycle
  simp only [parent?_addFacts h]

theorem isForest_iff {facts : List Literal} {m : ParentMap} (h : addFacts facts ∅ = .ok m) :
    IsForest facts ↔ ∀ c, ¬ m.OnCycle c := by
  constructor
  · intro hforest c
    rw [onCycle_iff h]
    exact hforest.acyclic c
  · intro hacyclic
    refine ⟨fun fact hfact => ?_, fun c p q hp hq => ?_, fun c => ?_⟩
    · rcases (addFacts_spec h).left fact hfact with ⟨c, p, hform, -⟩
      exact ⟨c, p, hform⟩
    · rw [← parent?_addFacts h] at hp hq
      exact Option.some.inj (hp.symm.trans hq)
    · rw [← onCycle_iff h]
      exact hacyclic c

theorem IsForest.exists_addFacts {facts : List Literal} (h : IsForest facts) :
    ∃ m, addFacts facts ∅ = .ok m := by
  apply Taxonomy.exists_addFacts
  · intro fact hfact
    rcases h.isa fact hfact with ⟨c, p, rfl⟩
    refine ⟨c, p, rfl, ?_⟩
    rintro rfl
    exact h.acyclic c (.single hfact)
  · intro c p q hp hq
    exact h.single c p q (hp.resolve_left nofun) (hq.resolve_left nofun)

theorem ofFacts_eq_ok_iff {facts : List Literal} {T : Taxonomy} :
    ofFacts facts = .ok T ↔ addFacts facts ∅ = .ok T.toParentMap := by
  unfold ofFacts
  cases hadd : addFacts facts ∅ with
  | error e => simp
  | ok m =>
      simp only
      split
      · rename_i c hcycle
        simp only [reduceCtorEq, Except.ok.injEq, false_iff]
        rintro rfl
        rw [T.acyclic] at hcycle
        cases hcycle
      · simp only [Except.ok.injEq]
        constructor
        · rintro rfl
          rfl
        · rintro rfl
          rfl

theorem exists_ofFacts_iff_isForest {facts : List Literal} :
    (∃ T, ofFacts facts = .ok T) ↔ IsForest facts := by
  constructor
  · intro h
    rcases h with ⟨T, hT⟩
    rw [isForest_iff (ofFacts_eq_ok_iff.mp hT)]
    exact (ParentMap.cycleFrom?_children_eq_none_iff (List.Perm.refl _)).mp T.acyclic
  · intro h
    rcases h.exists_addFacts with ⟨m, hm⟩
    have hcycle : m.cycle? = none :=
      (ParentMap.cycleFrom?_children_eq_none_iff (List.Perm.refl _)).mpr ((isForest_iff hm).mp h)
    exact ⟨⟨m, hcycle⟩, ofFacts_eq_ok_iff.mpr hm⟩

/-- The facts of a forest are accepted, and no others, whatever their order, however often they are
repeated, and in whatever order the search visits the children; each of its climbs ends, on a cycle
as well.  The taxonomy has an edge for every fact. -/
theorem ofFacts_accepts_forests (facts : List Literal) :
    ((∃ T, ofFacts facts = .ok T) ↔ IsForest facts) ∧
    (∀ facts' : List Literal, (∀ fact, fact ∈ facts' ↔ fact ∈ facts) →
      ((∃ T, ofFacts facts' = .ok T) ↔ ∃ T, ofFacts facts = .ok T)) ∧
    (∀ m, addFacts facts ∅ = .ok m →
      (∀ rooted c, m.ClimbEnds rooted [] c (m.climb rooted (m.edges.length + 1) [] c)) ∧
      ∀ starts : List String, starts.Perm (m.edges.map Prod.fst) →
        (m.cycleFrom? starts [] = none ↔ IsForest facts)) ∧
    ∀ T, ofFacts facts = .ok T →
      (∀ c p, T.parent? c = some p ↔ isa c p ∈ facts) ∧ T.size = facts.dedup.length := by
  refine ⟨exists_ofFacts_iff_isForest, ?_, ?_, ?_⟩
  · intro facts' hmem
    rw [exists_ofFacts_iff_isForest, exists_ofFacts_iff_isForest]
    exact ⟨fun h => h.of_mem_iff fun fact => (hmem fact).symm, fun h => h.of_mem_iff hmem⟩
  · intro m hm
    refine ⟨m.climbEnds_climb_start, fun starts hstarts => ?_⟩
    rw [ParentMap.cycleFrom?_children_eq_none_iff hstarts, isForest_iff hm]
  · intro T hT
    have hm := ofFacts_eq_ok_iff.mp hT
    exact ⟨parent?_addFacts hm, size_addFacts hm⟩

def dogFacts : List Literal :=
  [isa "puppy" "dog", isa "dog" "mammal", isa "mammal" "animal", isa "dog" "mammal"]

def catFacts : List Literal :=
  [isa "kitten" "cat", isa "cat" "feline", isa "feline" "cat"]

theorem ofFacts_accepts_dogFacts :
    (∃ T, ofFacts dogFacts = .ok T ∧ (T.parent? "dog" = some "mammal" ∧ T.size = 3) ∧
      ∃ T', ofFacts dogFacts.reverse = .ok T') ∧
    ∃ m, addFacts catFacts ∅ = .ok m ∧ m.cycleFrom? ["feline", "kitten", "cat"] [] ≠ none ∧
      ¬ ∃ T, ofFacts catFacts = .ok T := by
  constructor
  · rcases ofFacts_accepts_forests dogFacts with ⟨-, horder, -, hedges⟩
    have haccepted : ∃ T, ofFacts dogFacts = .ok T := ⟨_, rfl⟩
    rcases haccepted with ⟨T, hT⟩
    rcases hedges T hT with ⟨hparent, hsize⟩
    refine ⟨T, hT, ⟨(hparent "dog" "mammal").mpr (by decide), hsize.trans (by decide)⟩, ?_⟩
    exact (horder dogFacts.reverse fun fact => List.mem_reverse).mpr ⟨T, hT⟩
  · rcases ofFacts_accepts_forests catFacts with ⟨hiff, -, hvisits, -⟩
    have hcycle : ¬ IsForest catFacts := by
      intro hforest
      exact hforest.acyclic "cat" (.tail (b := "feline") (.single (by decide)) (by decide))
    have hadded : ∃ m, addFacts catFacts ∅ = .ok m ∧
        List.Perm ["feline", "kitten", "cat"] (m.edges.map Prod.fst) := ⟨_, rfl, by decide⟩
    rcases hadded with ⟨m, hm, hperm⟩
    exact ⟨m, hm, mt ((hvisits m hm).right _ hperm).mp hcycle, mt hiff.mp hcycle⟩

end Taxonomy

end ClauseInduction
