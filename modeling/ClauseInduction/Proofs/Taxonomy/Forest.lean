import Mathlib.Data.List.Nodup
import Mathlib.Data.List.Perm.Subperm
import ClauseInduction.Proofs.Taxonomy.Ancestor

/-!
# Depths and chains

The search for cycles accepts a parent map only if every node climbs to a root.  The number of steps
is the depth of the node; it drops by one from a node to its parent, so no chain returns to a node
and no chain is longer than the list of edges.  The chain of a constant therefore holds all of its
ancestors.
-/

namespace ClauseInduction

namespace ParentMap

variable {m : ParentMap}

/-!
# Climbing
-/

theorem Climbs.eq_of_root {c d : String} (h : m.Climbs c d) (hc : m.parent? c = none) : c = d := by
  rcases Relation.ReflTransGen.cases_head h with heq | ⟨p, hp, -⟩
  · exact heq
  · rw [hc] at hp
    cases hp

theorem Climbs.of_parent {c d p : String} (h : m.Climbs c d) (hne : c ≠ d)
    (hp : m.parent? c = some p) : m.Climbs p d := by
  rcases Relation.ReflTransGen.cases_head h with heq | ⟨p', hp', hd⟩
  · exact absurd heq hne
  · rw [hp] at hp'
    cases hp'
    exact hd

theorem Climbs.total {c d e : String} (hd : m.Climbs c d) (he : m.Climbs c e) :
    m.Climbs d e ∨ m.Climbs e d := by
  refine Relation.ReflTransGen.total_of_right_unique ?_ hd he
  intro x y z hy hz
  exact Option.some.inj (hy.symm.trans hz)

/-!
# Depths
-/

def AtDepth (m : ParentMap) : Nat → String → Prop
  | 0, c => m.parent? c = none
  | n + 1, c => ∃ p, m.parent? c = some p ∧ m.AtDepth n p

theorem AtDepth.unique {n k : Nat} {c : String} (hn : m.AtDepth n c) (hk : m.AtDepth k c) :
    n = k := by
  induction n generalizing k c with
  | zero =>
      cases k with
      | zero => rfl
      | succ k =>
          rcases hk with ⟨p, hp, -⟩
          cases hn.symm.trans hp
  | succ n ih =>
      rcases hn with ⟨p, hp, hn⟩
      cases k with
      | zero => cases hk.symm.trans hp
      | succ k =>
          rcases hk with ⟨q, hq, hk⟩
          cases hp.symm.trans hq
          rw [ih hn hk]

theorem climb_eq_ok {rooted path passed : List String} {n : Nat} {c : String}
    (hrooted : ∀ d ∈ rooted, ∃ k, m.AtDepth k d) (h : m.climb rooted n path c = .ok passed) :
    (∃ k, m.AtDepth k c) ∧ ∀ d ∈ passed, d ∈ path ∨ ∃ k, m.AtDepth k d := by
  induction n generalizing path c with
  | zero => cases h
  | succ n ih =>
      rw [climb] at h
      by_cases hc : c ∈ rooted
      · rw [if_pos hc] at h
        cases h
        exact ⟨hrooted c hc, fun d hd => Or.inl hd⟩
      · rw [if_neg hc] at h
        by_cases hpath : c ∈ path
        · rw [if_pos hpath] at h
          cases h
        · rw [if_neg hpath] at h
          have hgrounded : (∃ k, m.AtDepth k c) ∧
              ∀ d ∈ passed, d ∈ c :: path ∨ ∃ k, m.AtDepth k d := by
            cases hp : m.parent? c with
            | none =>
                rw [hp] at h
                cases h
                exact ⟨⟨0, hp⟩, fun d hd => Or.inl hd⟩
            | some p =>
                rw [hp] at h
                rcases ih h with ⟨⟨k, hk⟩, hpassed⟩
                exact ⟨⟨k + 1, p, hp, hk⟩, hpassed⟩
          refine ⟨hgrounded.left, fun d hd => ?_⟩
          rcases hgrounded.right d hd with hmem | hdepth
          · rcases List.mem_cons.mp hmem with rfl | hmem
            · exact Or.inr hgrounded.left
            · exact Or.inl hmem
          · exact Or.inr hdepth

theorem exists_atDepth_of_cycleFrom? {starts rooted : List String}
    (hrooted : ∀ d ∈ rooted, ∃ k, m.AtDepth k d) (h : m.cycleFrom? starts rooted = none) :
    ∀ c ∈ starts, ∃ k, m.AtDepth k c := by
  induction starts generalizing rooted with
  | nil =>
      intro c hc
      cases hc
  | cons start starts ih =>
      rw [cycleFrom?] at h
      cases hclimb : m.climb rooted (m.edges.length + 1) [] start with
      | error d =>
          rw [hclimb] at h
          cases h
      | ok passed =>
          rw [hclimb] at h
          rcases climb_eq_ok hrooted hclimb with ⟨hstart, hpassed⟩
          have hrest : ∀ d ∈ passed ++ rooted, ∃ k, m.AtDepth k d := by
            intro d hd
            rcases List.mem_append.mp hd with hd | hd
            · exact (hpassed d hd).resolve_left (List.not_mem_nil)
            · exact hrooted d hd
          intro c hc
          rcases List.mem_cons.mp hc with rfl | hc
          · exact hstart
          · exact ih hrest h c hc

theorem exists_atDepth (h : m.cycle? = none) (c : String) : ∃ n, m.AtDepth n c := by
  cases hp : m.parent? c with
  | none => exact ⟨0, hp⟩
  | some p =>
      refine exists_atDepth_of_cycleFrom? (List.forall_mem_nil _) h c ?_
      by_contra hc
      rw [parent?_eq_none_iff.mpr hc] at hp
      cases hp

/-!
# Chains
-/

theorem chainWithin_of_root {c : String} (hc : m.parent? c = none) (k : Nat) :
    m.chainWithin k c = [c] := by
  cases k with
  | zero => rfl
  | succ k => simp only [chainWithin, hc]

theorem AtDepth.length_chainWithin {n : Nat} {c : String} (h : m.AtDepth n c) (k : Nat) :
    (m.chainWithin k c).length = min k n + 1 := by
  induction n generalizing k c with
  | zero =>
      rw [chainWithin_of_root h, Nat.min_zero]
      rfl
  | succ n ih =>
      rcases h with ⟨p, hp, hn⟩
      cases k with
      | zero => rw [chainWithin, Nat.zero_min, List.length_singleton]
      | succ k => simp only [chainWithin, hp, List.length_cons, ih hn, Nat.succ_min_succ]

theorem AtDepth.mem_chainWithin {n k : Nat} {c d : String} (h : m.AtDepth n c) (hk : n ≤ k) :
    d ∈ m.chainWithin k c ↔ m.Climbs c d := by
  induction n generalizing k c with
  | zero =>
      rw [chainWithin_of_root h, List.mem_singleton]
      constructor
      · intro heq
        rw [heq]
        exact .refl
      · intro hclimbs
        exact (hclimbs.eq_of_root h).symm
  | succ n ih =>
      rcases h with ⟨p, hp, hn⟩
      rcases Nat.exists_eq_succ_of_ne_zero (Nat.ne_zero_of_lt hk) with ⟨k, rfl⟩
      simp only [chainWithin, hp, List.mem_cons, ih hn (Nat.le_of_succ_le_succ hk)]
      constructor
      · intro hd
        rcases hd with rfl | hd
        · exact .refl
        · exact .head hp hd
      · intro hclimbs
        by_cases heq : c = d
        · exact Or.inl heq.symm
        · exact Or.inr (hclimbs.of_parent heq hp)

theorem AtDepth.chainWithin_spec {n k : Nat} {c : String} (h : m.AtDepth n c) (hk : k ≤ n) :
    (m.chainWithin k c).Nodup ∧
      ∀ d ∈ m.chainWithin k c, ∃ j, n - k ≤ j ∧ j ≤ n ∧ m.AtDepth j d := by
  induction k generalizing n c with
  | zero =>
      refine ⟨List.nodup_singleton c, fun d hd => ⟨n, Nat.sub_le n 0, Nat.le_refl n, ?_⟩⟩
      rw [List.mem_singleton.mp hd]
      exact h
  | succ k ih =>
      cases n with
      | zero => cases hk
      | succ n =>
          rcases h with ⟨p, hp, hn⟩
          have hc : m.AtDepth (n + 1) c := ⟨p, hp, hn⟩
          rcases ih hn (Nat.le_of_succ_le_succ hk) with ⟨hnodup, hdepths⟩
          simp only [chainWithin, hp]
          refine ⟨List.nodup_cons.mpr ⟨?_, hnodup⟩, fun d hd => ?_⟩
          · intro hmem
            rcases hdepths c hmem with ⟨j, -, hjn, hj⟩
            have heq : n + 1 = j := hc.unique hj
            omega
          · rcases List.mem_cons.mp hd with rfl | hd
            · exact ⟨n + 1, Nat.sub_le _ _, Nat.le_refl _, hc⟩
            · rcases hdepths d hd with ⟨j, hj, hjn, hdepth⟩
              exact ⟨j, by omega, Nat.le_succ_of_le hjn, hdepth⟩

/-- The nodes of a chain other than its root are children of different edges. -/
theorem AtDepth.le_length {n : Nat} {c : String} (h : m.AtDepth n c) : n ≤ m.edges.length := by
  cases n with
  | zero => exact Nat.zero_le _
  | succ n =>
      rcases h.chainWithin_spec (Nat.le_succ n) with ⟨hnodup, hdepths⟩
      have hsub : m.chainWithin n c ⊆ m.edges.map Prod.fst := by
        intro d hd
        rcases hdepths d hd with ⟨j, hj, -, hdepth⟩
        by_contra hchild
        have hroot : m.AtDepth 0 d := parent?_eq_none_iff.mpr hchild
        have heq : j = 0 := hdepth.unique hroot
        omega
      have hlength := (hnodup.subperm hsub).length_le
      rw [h.length_chainWithin, List.length_map] at hlength
      omega

end ParentMap

namespace Taxonomy

variable {T : Taxonomy} {c d p : String}

theorem atDepth_depth (T : Taxonomy) (c : String) : T.AtDepth (T.depth c) c := by
  rcases ParentMap.exists_atDepth T.acyclic c with ⟨n, hn⟩
  have hle : n ≤ T.size := hn.le_length
  have hdepth : T.depth c = n := by
    rw [depth, chain, hn.length_chainWithin, Nat.min_eq_right hle]
    rfl
  rw [hdepth]
  exact hn

theorem depth_le_size (T : Taxonomy) (c : String) : T.depth c ≤ T.size :=
  (T.atDepth_depth c).le_length

theorem depth_eq_zero (hc : T.parent? c = none) : T.depth c = 0 :=
  (T.atDepth_depth c).unique (k := 0) hc

theorem depth_eq_succ (hp : T.parent? c = some p) : T.depth c = T.depth p + 1 :=
  (T.atDepth_depth c).unique ⟨p, hp, T.atDepth_depth p⟩

theorem mem_chain_iff : d ∈ T.chain c ↔ T.Climbs c d :=
  (T.atDepth_depth c).mem_chainWithin (T.depth_le_size c)

theorem depth_le_of_climbs (h : T.Climbs c d) : T.depth d ≤ T.depth c := by
  induction h with
  | refl => exact Nat.le_refl _
  | tail _ hp ih =>
      rw [depth_eq_succ hp] at ih
      omega

theorem eq_of_climbs_of_depth_le (h : T.Climbs c d) (hdepth : T.depth c ≤ T.depth d) : c = d := by
  rcases Relation.ReflTransGen.cases_head h with heq | ⟨p, hp, hd⟩
  · exact heq
  · have hle := depth_le_of_climbs hd
    rw [depth_eq_succ hp] at hdepth
    omega

end Taxonomy

end ClauseInduction
