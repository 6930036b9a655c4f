import ClauseInduction.Proofs.Taxonomy.Meeting

/-!
# What the walk from two constants finds

Every step of the walk climbs an edge, so it ends after as many steps as the two depths allow.  If it
starts in step it ends at the first constant of one chain that lies on the other, and otherwise at
the root of the tree.
-/

namespace ClauseInduction

/-- How the walk from two constants goes: the number of its steps, and what it finds. -/
inductive ParentMap.WalkEnds (m : ParentMap) : Nat → String → String → Option String → Prop where
  | met (a : String) : WalkEnds m 0 a a (some a)
  | climbFirst {n : Nat} {a b p : String} {result : Option String} (hab : a ≠ b)
      (hp : m.parent? a = some p) (h : WalkEnds m n b p result) : WalkEnds m (n + 1) a b result
  | climbSecond {n : Nat} {a b p : String} {result : Option String} (hab : a ≠ b)
      (hroot : m.parent? a = none) (hp : m.parent? b = some p) (h : WalkEnds m n a p result) :
      WalkEnds m (n + 1) a b result
  | apart {a b : String} (hab : a ≠ b) (hroot : m.parent? a = none)
      (hroot' : m.parent? b = none) : WalkEnds m 0 a b none

namespace Taxonomy

variable {T : Taxonomy} {a b c p : String}

theorem exists_walkEnds {k : Nat} (hk : T.depth a + T.depth b < k) :
    ∃ n ≤ T.depth a + T.depth b, T.WalkEnds n a b (T.meetWithin k a b) := by
  induction k generalizing a b with
  | zero => cases hk
  | succ k ih =>
      rw [ParentMap.meetWithin]
      by_cases hab : a = b
      · rw [if_pos hab, hab]
        exact ⟨0, Nat.zero_le _, .met b⟩
      · rw [if_neg hab]
        cases hp : T.parent? a with
        | some p =>
            rw [depth_eq_succ hp] at hk ⊢
            rcases ih (a := b) (b := p) (by omega) with ⟨n, hn, hends⟩
            exact ⟨n + 1, by omega, .climbFirst hab hp hends⟩
        | none =>
            cases hq : T.parent? b with
            | some q =>
                rw [depth_eq_succ hq] at hk ⊢
                rcases ih (a := a) (b := q) (by omega) with ⟨n, hn, hends⟩
                exact ⟨n + 1, by omega, .climbSecond hab hp hq hends⟩
            | none => exact ⟨0, Nat.zero_le _, .apart hab hp hq⟩

/-!
# Chains

A chain is the constant followed by the chain of its parent.
-/

/-- Induction along the parent steps, from the roots down. -/
theorem parentInduction {motive : String → Prop}
    (root : ∀ c, T.parent? c = none → motive c)
    (child : ∀ c p, T.parent? c = some p → motive p → motive c) (c : String) : motive c := by
  have hdepth : ∀ (n : Nat) (c : String), T.AtDepth n c → motive c := by
    intro n
    induction n with
    | zero => exact root
    | succ n ih =>
        intro c hc
        rcases hc with ⟨p, hp, hn⟩
        exact child c p hp (ih p hn)
  exact hdepth _ c (T.atDepth_depth c)

theorem chain_of_root (hc : T.parent? c = none) : T.chain c = [c] :=
  ParentMap.chainWithin_of_root hc _

theorem chainWithin_depth {k : Nat} (hk : T.depth c ≤ k) :
    T.chainWithin k c = T.chainWithin (T.depth c) c := by
  induction c using T.parentInduction generalizing k with
  | root c hc => rw [ParentMap.chainWithin_of_root hc, ParentMap.chainWithin_of_root hc]
  | child c p hp ih =>
      rw [depth_eq_succ hp] at hk ⊢
      rcases Nat.exists_eq_succ_of_ne_zero (Nat.ne_zero_of_lt hk) with ⟨k, rfl⟩
      simp only [ParentMap.chainWithin, hp, ih (Nat.le_of_succ_le_succ hk)]

theorem chain_of_parent (hp : T.parent? c = some p) : T.chain c = c :: T.chain p := by
  rw [chain, chainWithin_depth (T.depth_le_size c), depth_eq_succ hp, ParentMap.chainWithin, hp,
    chain, chainWithin_depth (T.depth_le_size p)]

theorem getLast?_chain (hc : c ∈ T.chain a) (hroot : T.parent? c = none) :
    (T.chain a).getLast? = some c := by
  induction a using T.parentInduction with
  | root a ha =>
      rw [chain_of_root ha] at hc ⊢
      rw [List.mem_singleton.mp hc]
      rfl
  | child a p hp ih =>
      rw [chain_of_parent hp] at hc ⊢
      rcases List.mem_cons.mp hc with rfl | hc
      · rw [hp] at hroot
        cases hroot
      · rw [List.getLast?_cons, ih hc]
        rfl

theorem IsClosest.find?_chain (h : T.IsClosest a b c) :
    (T.chain a).find? (fun d => d ∈ T.chain b) = some c := by
  rcases h with ⟨⟨hca, hcb⟩, hclosest⟩
  induction a using T.parentInduction with
  | root a ha =>
      rw [chain_of_root ha] at hca ⊢
      rw [← List.mem_singleton.mp hca]
      simp [hcb]
  | child a p hp ih =>
      by_cases hab : a ∈ T.chain b
      · have hac := mem_chain_iff.mp hca
        have hcca := mem_chain_iff.mp (hclosest a (mem_chain_iff.mpr .refl) hab)
        rw [eq_of_climbs_of_depth_le hcca (depth_le_of_climbs hac), chain_of_parent hp]
        simp [hab]
      · rw [chain_of_parent hp] at hca hclosest ⊢
        have hne : c ≠ a := fun hca => hab (hca ▸ hcb)
        simp only [List.find?_cons, hab, decide_false]
        refine ih (fun d hd => ?_) ((List.mem_cons.mp hca).resolve_left hne)
        exact hclosest d (List.mem_cons_of_mem a hd)

/-!
# The answer
-/

theorem closestCommonAncestor_eq_none_iff :
    T.closestCommonAncestor a b = none ↔ ∀ d ∈ T.chain a, d ∉ T.chain b := by
  constructor
  · intro h d hda hdb
    rcases exists_closestCommonAncestor (mem_chain_iff.mp hda) (mem_chain_iff.mp hdb) with ⟨c, hc⟩
    cases h.symm.trans hc
  · intro h
    by_contra hsome
    rcases Option.ne_none_iff_exists'.mp hsome with ⟨c, hc⟩
    rcases mem_chain_of_closestCommonAncestor hc with ⟨hca, hcb⟩
    exact h c hca hcb

theorem closestCommonAncestor_of_inStep (hstep : T.InStep a b) :
    T.closestCommonAncestor a b = (T.chain a).find? fun d => d ∈ T.chain b := by
  cases h : T.closestCommonAncestor a b with
  | none =>
      symm
      rw [List.find?_eq_none]
      simpa using closestCommonAncestor_eq_none_iff.mp h
  | some c => exact (isClosest_of_inStep hstep h).find?_chain.symm

theorem closestCommonAncestor_of_not_inStep (hstep : ¬ T.InStep a b)
    (hshared : ∃ d ∈ T.chain a, d ∈ T.chain b) :
    T.closestCommonAncestor a b = (T.chain a).getLast? ∧
      T.closestCommonAncestor a b = (T.chain b).getLast? := by
  rcases hshared with ⟨d, hda, hdb⟩
  rcases exists_closestCommonAncestor (mem_chain_iff.mp hda) (mem_chain_iff.mp hdb) with ⟨c, hc⟩
  rcases mem_chain_of_closestCommonAncestor hc with ⟨hca, hcb⟩
  have hroot := root_of_meetWithin_of_not_inStep hstep hc
  rw [hc, getLast?_chain hca hroot, getLast?_chain hcb hroot]
  exact ⟨rfl, rfl⟩

/-- The walk ends, and finds nothing exactly if the chains share nothing.  Otherwise it finds the
first constant of the first chain that lies on the second, if the first constant lies as deep as the
second or one step deeper, and the end of both chains if it does not. -/
theorem closestCommonAncestor_spec (T : Taxonomy) (a b : String) :
    (∃ n ≤ T.depth a + T.depth b, T.WalkEnds n a b (T.closestCommonAncestor a b)) ∧
    (T.closestCommonAncestor a b = none ↔ ∀ d ∈ T.chain a, d ∉ T.chain b) ∧
    ((T.depth a = T.depth b ∨ T.depth a = T.depth b + 1) →
      T.closestCommonAncestor a b = (T.chain a).find? fun d => d ∈ T.chain b) ∧
    (¬ (T.depth a = T.depth b ∨ T.depth a = T.depth b + 1) →
      (∃ d ∈ T.chain a, d ∈ T.chain b) →
        T.closestCommonAncestor a b = (T.chain a).getLast? ∧
          T.closestCommonAncestor a b = (T.chain b).getLast?) := by
  refine ⟨exists_walkEnds ?_, closestCommonAncestor_eq_none_iff, closestCommonAncestor_of_inStep,
    closestCommonAncestor_of_not_inStep⟩
  have hle := T.depth_le_size a
  have hle' := T.depth_le_size b
  omega

theorem closestCommonAncestor_mammals :
    mammals.closestCommonAncestor "terrier" "cat" = some "mammal" ∧
    mammals.closestCommonAncestor "mammal" "terrier" = some "animal" ∧
    mammals.closestCommonAncestor "terrier" "rock" = none := by
  refine ⟨?_, ?_, ?_⟩
  · rw [(closestCommonAncestor_spec mammals "terrier" "cat").right.right.left (by decide)]
    decide
  · rw [((closestCommonAncestor_spec mammals "mammal" "terrier").right.right.right (by decide)
      ⟨"mammal", by decide, by decide⟩).left]
    decide
  · exact (closestCommonAncestor_spec mammals "terrier" "rock").right.left.mpr (by decide)

end Taxonomy
end ClauseInduction
