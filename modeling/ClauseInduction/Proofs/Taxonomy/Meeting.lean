import ClauseInduction.Proofs.Taxonomy.Forest

/-!
# Where the walk from two constants ends

A step of the walk swaps the two constants after the first one has climbed.  If the first one lies
as deep as the second or one step deeper, this is so again after the step, and the two arrive
together at the closest of their common ancestors.  Otherwise it is never so, they pass each other,
and the walk goes on until one of them has reached the root.
-/

namespace ClauseInduction
namespace Taxonomy

variable {T : Taxonomy} {a b c d e p : String}

/-- The first constant lies as deep as the second, or one step deeper. -/
def InStep (T : Taxonomy) (a b : String) : Prop :=
  T.depth a = T.depth b ∨ T.depth a = T.depth b + 1

instance (T : Taxonomy) (a b : String) : Decidable (T.InStep a b) :=
  inferInstanceAs (Decidable (_ ∨ _))

theorem inStep_parent_iff (hp : T.parent? a = some p) : T.InStep b p ↔ T.InStep a b := by
  unfold InStep
  rw [depth_eq_succ hp]
  omega

/-!
# The two ways to end
-/

theorem climbs_of_meetWithin_of_inStep {n : Nat} (hstep : T.InStep a b)
    (h : T.meetWithin n a b = some c) (ha : T.Climbs a e) (hb : T.Climbs b e) :
    T.Climbs c e := by
  induction n generalizing a b with
  | zero => cases h
  | succ n ih =>
      rcases ParentMap.meetWithin_cases h with
        ⟨-, rfl⟩ | ⟨p, hab, hp, h⟩ | ⟨p, -, hroot, hp, -⟩
      · exact ha
      · have hne : a ≠ e := by
          intro hae
          have hdepth : T.depth b ≤ T.depth a := by
            unfold InStep at hstep
            omega
          rw [← hae] at hb
          exact hab (eq_of_climbs_of_depth_le hb hdepth).symm
        exact ih ((inStep_parent_iff hp).mpr hstep) h hb (ha.of_parent hne hp)
      -- a root is not as deep as a constant that has a parent
      · unfold InStep at hstep
        rw [depth_eq_zero hroot, depth_eq_succ hp] at hstep
        omega

theorem root_of_meetWithin_of_not_inStep {n : Nat} (hstep : ¬ T.InStep a b)
    (h : T.meetWithin n a b = some c) : T.parent? c = none := by
  induction n generalizing a b with
  | zero => cases h
  | succ n ih =>
      rcases ParentMap.meetWithin_cases h with
        ⟨rfl, -⟩ | ⟨p, -, hp, h⟩ | ⟨p, -, hroot, -, h⟩
      · exact absurd (Or.inl rfl) hstep
      · exact ih (mt (inStep_parent_iff hp).mp hstep) h
      · have hac : a = c := (ParentMap.climbs_of_meetWithin h).left.eq_of_root hroot
        rw [← hac]
        exact hroot

/-- Every step climbs an edge, so the depths bound the length of the walk. -/
theorem exists_meetWithin {n : Nat} (hn : T.depth a + T.depth b < n) (ha : T.Climbs a e)
    (hb : T.Climbs b e) : ∃ c, T.meetWithin n a b = some c := by
  induction n generalizing a b e with
  | zero => cases hn
  | succ n ih =>
      rw [ParentMap.meetWithin]
      by_cases hab : a = b
      · rw [if_pos hab]
        exact ⟨a, rfl⟩
      · rw [if_neg hab]
        cases hp : T.parent? a with
        | some p =>
            rw [depth_eq_succ hp] at hn
            by_cases hae : a = e
            · rw [← hae] at hb
              exact ih (by omega) (hb.tail hp) .refl
            · exact ih (by omega) hb (ha.of_parent hae hp)
        | none =>
            have hae : a = e := ha.eq_of_root hp
            rw [← hae] at hb
            cases hq : T.parent? b with
            | some q =>
                rw [depth_eq_succ hq] at hn
                exact ih (by omega) .refl (hb.of_parent (Ne.symm hab) hq)
            | none => exact absurd (hb.eq_of_root hq).symm hab

theorem exists_closestCommonAncestor (ha : T.Climbs a e) (hb : T.Climbs b e) :
    ∃ c, T.closestCommonAncestor a b = some c := by
  apply exists_meetWithin _ ha hb
  have hle := T.depth_le_size a
  have hle' := T.depth_le_size b
  omega

/-!
# The closest common ancestor
-/

/-- The constant lies on both chains, and what else lies on both lies on its own chain. -/
def IsClosest (T : Taxonomy) (a b c : String) : Prop :=
  (c ∈ T.chain a ∧ c ∈ T.chain b) ∧ ∀ d ∈ T.chain a, d ∈ T.chain b → d ∈ T.chain c

instance (T : Taxonomy) (a b c : String) : Decidable (T.IsClosest a b c) :=
  inferInstanceAs (Decidable (_ ∧ _))

def MeetsAtRoot (T : Taxonomy) (a b : String) : Prop :=
  ∀ d ∈ T.chain a, d ∈ T.chain b → T.parent? d = none

instance (T : Taxonomy) (a b : String) : Decidable (T.MeetsAtRoot a b) :=
  inferInstanceAs (Decidable (∀ d ∈ T.chain a, d ∈ T.chain b → T.parent? d = none))

theorem MeetsAtRoot.symm (h : T.MeetsAtRoot a b) : T.MeetsAtRoot b a :=
  fun d hb ha => h d ha hb

theorem eq_of_climbs_root (hc : T.Climbs a c) (hd : T.Climbs a d) (hcroot : T.parent? c = none)
    (hdroot : T.parent? d = none) : c = d := by
  rcases hc.total hd with h | h
  · exact h.eq_of_root hcroot
  · exact (h.eq_of_root hdroot).symm

theorem mem_chain_of_closestCommonAncestor (h : T.closestCommonAncestor a b = some c) :
    c ∈ T.chain a ∧ c ∈ T.chain b := by
  rw [mem_chain_iff, mem_chain_iff]
  exact ParentMap.climbs_of_meetWithin h

theorem isClosest_of_inStep (hstep : T.InStep a b) (h : T.closestCommonAncestor a b = some c) :
    T.IsClosest a b c := by
  refine ⟨mem_chain_of_closestCommonAncestor h, fun d ha hb => ?_⟩
  rw [mem_chain_iff] at ha hb ⊢
  exact climbs_of_meetWithin_of_inStep hstep h ha hb

theorem isClosest_of_meetsAtRoot (hroot : T.MeetsAtRoot a b)
    (h : T.closestCommonAncestor a b = some c) : T.IsClosest a b c := by
  rcases mem_chain_of_closestCommonAncestor h with ⟨hca, hcb⟩
  refine ⟨⟨hca, hcb⟩, fun d hda hdb => ?_⟩
  have hcd : c = d := eq_of_climbs_root (mem_chain_iff.mp hca) (mem_chain_iff.mp hda)
    (hroot c hca hcb) (hroot d hda hdb)
  rw [hcd, mem_chain_iff]
  exact .refl

theorem IsClosest.meetsAtRoot (h : T.IsClosest a b c) (hc : T.parent? c = none) :
    T.MeetsAtRoot a b := by
  intro d hda hdb
  have hcd := (mem_chain_iff.mp (h.right d hda hdb)).eq_of_root hc
  rw [← hcd]
  exact hc

theorem IsClosest.unique (hc : T.IsClosest a b c) (hd : T.IsClosest a b d) : c = d := by
  have hcd := mem_chain_iff.mp (hc.right d hd.left.left hd.left.right)
  have hdc := mem_chain_iff.mp (hd.right c hc.left.left hc.left.right)
  exact eq_of_climbs_of_depth_le hcd (depth_le_of_climbs hdc)

theorem IsClosest.symm (h : T.IsClosest a b c) : T.IsClosest b a c :=
  ⟨⟨h.left.right, h.left.left⟩, fun d hb ha => h.right d ha hb⟩

theorem isClosest_iff (h : T.closestCommonAncestor a b = some c) :
    T.IsClosest a b c ↔ T.InStep a b ∨ T.MeetsAtRoot a b := by
  constructor
  · intro hclosest
    by_cases hstep : T.InStep a b
    · exact Or.inl hstep
    · exact Or.inr (hclosest.meetsAtRoot (root_of_meetWithin_of_not_inStep hstep h))
  · intro hcases
    rcases hcases with hstep | hroot
    · exact isClosest_of_inStep hstep h
    · exact isClosest_of_meetsAtRoot hroot h

/-!
# The order of the two constants
-/

theorem meetsAtRoot_of_comm (h : T.closestCommonAncestor a b = T.closestCommonAncestor b a)
    (hdepth : T.depth a = T.depth b + 1) : T.MeetsAtRoot a b := by
  intro d hda hdb
  rcases exists_closestCommonAncestor (mem_chain_iff.mp hda) (mem_chain_iff.mp hdb) with ⟨c, hc⟩
  have hback : ¬ T.InStep b a := by
    unfold InStep
    omega
  have hroot := root_of_meetWithin_of_not_inStep hback (h.symm.trans hc)
  exact (isClosest_of_inStep (Or.inr hdepth) hc).meetsAtRoot hroot d hda hdb

theorem closestCommonAncestor_eq_none_symm (h : T.closestCommonAncestor a b = none) :
    T.closestCommonAncestor b a = none := by
  by_contra hsome
  rcases Option.ne_none_iff_exists'.mp hsome with ⟨c, hc⟩
  rcases ParentMap.climbs_of_meetWithin hc with ⟨hb, ha⟩
  rcases exists_closestCommonAncestor ha hb with ⟨d, hd⟩
  cases h.symm.trans hd

theorem closestCommonAncestor_comm_iff :
    T.closestCommonAncestor a b = T.closestCommonAncestor b a ↔
      (T.depth a = T.depth b + 1 ∨ T.depth b = T.depth a + 1 → T.MeetsAtRoot a b) := by
  constructor
  · intro h hdepth
    rcases hdepth with hdepth | hdepth
    · exact meetsAtRoot_of_comm h hdepth
    · exact (meetsAtRoot_of_comm h.symm hdepth).symm
  · intro hoff
    cases h : T.closestCommonAncestor a b with
    | none => exact (closestCommonAncestor_eq_none_symm h).symm
    | some c =>
        rcases ParentMap.climbs_of_meetWithin h with ⟨hac, hbc⟩
        rcases exists_closestCommonAncestor hbc hac with ⟨d, hd⟩
        rw [hd]
        congr 1
        by_cases hmeets : T.MeetsAtRoot a b
        · have hback := isClosest_of_meetsAtRoot hmeets.symm hd
          exact (isClosest_of_meetsAtRoot hmeets h).unique hback.symm
        · have hapart := mt hoff hmeets
          by_cases hdepth : T.depth a = T.depth b
          · have hback := isClosest_of_inStep (Or.inl hdepth.symm) hd
            exact (isClosest_of_inStep (Or.inl hdepth) h).unique hback.symm
          -- both orders pass the closest one and end at the root
          · have hstep : ¬ T.InStep a b ∧ ¬ T.InStep b a := by
              unfold InStep
              omega
            exact eq_of_climbs_root hac (ParentMap.climbs_of_meetWithin hd).right
              (root_of_meetWithin_of_not_inStep hstep.left h)
              (root_of_meetWithin_of_not_inStep hstep.right hd)

/-- The constant that is found is the closest common ancestor exactly if the first constant lies as
deep as the second or one step deeper, or if their chains share nothing but a root.  The order of
the two constants matters exactly if their depths differ by one and their chains share more than a
root. -/
theorem isClosest_answer_iff (T : Taxonomy) (a b : String) :
    (∀ c, T.closestCommonAncestor a b = some c →
      (T.IsClosest a b c ↔
        (T.depth a = T.depth b ∨ T.depth a = T.depth b + 1) ∨ T.MeetsAtRoot a b)) ∧
    (T.closestCommonAncestor a b = T.closestCommonAncestor b a ↔
      (T.depth a = T.depth b + 1 ∨ T.depth b = T.depth a + 1 → T.MeetsAtRoot a b)) :=
  ⟨fun _ h => isClosest_iff h, closestCommonAncestor_comm_iff⟩

def mammals : Taxonomy :=
  ⟨⟨[("terrier", "dog"), ("dog", "mammal"), ("cat", "mammal"), ("mammal", "animal")],
    by decide⟩, by decide⟩

def mammalFacts : List Literal :=
  [isa "terrier" "dog", isa "dog" "mammal", isa "cat" "mammal", isa "mammal" "animal"]

theorem ofFacts_mammalFacts : ofFacts mammalFacts = .ok mammals :=
  rfl

theorem isClosest_terrier_cat :
    (mammals.closestCommonAncestor "terrier" "cat" = some "mammal" ∧
      mammals.IsClosest "terrier" "cat" "mammal") ∧
    (mammals.closestCommonAncestor "cat" "terrier" = some "animal" ∧
      ¬ mammals.IsClosest "cat" "terrier" "animal") ∧
    mammals.closestCommonAncestor "terrier" "cat" ≠
      mammals.closestCommonAncestor "cat" "terrier" := by
  rcases isClosest_answer_iff mammals "terrier" "cat" with ⟨hforth, hcomm⟩
  rcases isClosest_answer_iff mammals "cat" "terrier" with ⟨hback, -⟩
  have hmammal : mammals.closestCommonAncestor "terrier" "cat" = some "mammal" := by decide
  have hanimal : mammals.closestCommonAncestor "cat" "terrier" = some "animal" := by decide
  refine ⟨⟨hmammal, (hforth _ hmammal).mpr (by decide)⟩, ⟨hanimal, ?_⟩, ?_⟩
  · exact mt (hback _ hanimal).mp (by decide)
  · exact mt hcomm.mp (by decide)

/-- A constant and its child: the walk that starts from the constant misses it. -/
theorem exists_answer_past_closest :
    (¬ ∀ (facts : List Literal) (T : Taxonomy) (a b c : String), ofFacts facts = .ok T →
      T.closestCommonAncestor a b = some c →
        ∀ d ∈ T.chain a, d ∈ T.chain b → d ∈ T.chain c) ∧
    ¬ ∀ (facts : List Literal) (T : Taxonomy) (a b : String), ofFacts facts = .ok T →
      T.closestCommonAncestor a b = T.closestCommonAncestor b a := by
  constructor
  · intro h
    have hmammal : "mammal" ∈ mammals.chain "animal" :=
      h mammalFacts mammals "mammal" "dog" "animal" ofFacts_mammalFacts (by decide) "mammal"
        (by decide) (by decide)
    exact absurd hmammal (by decide)
  · intro h
    exact absurd (h mammalFacts mammals "mammal" "dog" ofFacts_mammalFacts) (by decide)

end Taxonomy
end ClauseInduction
