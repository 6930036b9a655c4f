import ClauseInduction.Proofs.Generalization.Bounds
import ClauseInduction.Proofs.Taxonomy.Ancestor

/-!
# Subsumption up to ancestors

Where two constants have a common ancestor, generalization puts the ancestor in their place, and no
substitution gives a constant back.  A generalization therefore subsumes an input up to ancestors:
its instances are literals of the input in which some constants are replaced by ancestors of
theirs.  Without a taxonomy this is subsumption.
-/

namespace ClauseInduction

namespace Term

/-- The first term is the second one with some constants replaced by constants above them. -/
inductive Lifts (above : String → String → Prop) : Term → Term → Prop where
  | var (x : String) : Lifts above (.var x) (.var x)
  | const {c d : String} (habove : above c d) : Lifts above (.const c) (.const d)
  | app (f : FunctionSymbol) {ss ts : List Term} (hlength : ss.length = ts.length)
      (hargs : ∀ p ∈ ss.zip ts, Lifts above p.1 p.2) : Lifts above (.app f ss) (.app f ts)

theorem Lifts.refl {above : String → String → Prop} (habove : ∀ c, above c c) (t : Term) :
    Lifts above t t := by
  induction t with
  | var x => exact .var x
  | const c => exact .const (habove c)
  | app f args ih =>
      have hzip : args.zip args = args.map fun t => (t, t) := by
        simpa using zip_map_self id args
      refine .app f rfl fun p hp => ?_
      rw [hzip, List.mem_map] at hp
      rcases hp with ⟨t, ht, rfl⟩
      exact ih t ht

theorem Lifts.eq {s t : Term} (h : Lifts Eq s t) : s = t := by
  induction h with
  | var x => rfl
  | const habove => rw [habove]
  | app f hlength hargs ih =>
      congr 1
      apply List.ext_getElem hlength
      intro i hi hi'
      refine ih (_, _) (List.mem_iff_getElem.mpr ⟨i, ?_, List.getElem_zip⟩)
      rw [List.length_zip]
      exact Nat.lt_min.mpr ⟨hi, hi'⟩

theorem Lifts.combine {above : String → String → Prop} {φ ψ : Term → Term → Term} {s t : Term}
    (h : ∀ p ∈ aligned s t, Lifts above (φ p.1 p.2) (ψ p.1 p.2)) :
    Lifts above (combine φ s t) (combine ψ s t) := by
  induction s, t using pairInduction with
  | leaf s t hshape =>
      rw [combine_of_not_sameShape hshape, combine_of_not_sameShape hshape]
      exact h (s, t) (by simp [aligned_of_not_sameShape hshape])
  | app f ss ts hlength ih =>
      rw [aligned_app hlength] at h
      rw [combine_app hlength, combine_app hlength]
      refine .app f (by simp) fun p hp => ?_
      rw [List.zip_map', List.mem_map] at hp
      rcases hp with ⟨q, hq, rfl⟩
      exact ih q hq fun p hp => h p (mem_alignedList.mpr ⟨q, hq, hp⟩)

end Term

def Literal.Lifts (above : String → String → Prop) (l m : Literal) : Prop :=
  l.positive = m.positive ∧ l.toTerm.Lifts above m.toTerm

theorem Literal.Lifts.combine {above : String → String → Prop} {φ ψ : Term → Term → Term}
    {l m : Literal} (hlm : l.Compatible m)
    (h : ∀ p ∈ l.aligned m, (φ p.1 p.2).Lifts above (ψ p.1 p.2)) :
    (l.combine φ m).Lifts above (l.combine ψ m) := by
  refine ⟨rfl, ?_⟩
  rw [toTerm_combine hlm, toTerm_combine hlm]
  rw [aligned_eq hlm] at h
  exact Term.Lifts.combine h

namespace Clause

/-- One substitution sends every literal of `C` to a literal of `D` in which some constants are
replaced by ancestors. -/
def SubsumesUpTo (taxonomy : Option Taxonomy) (C D : Clause) : Prop :=
  ∃ σ : String → Term, ∀ l ∈ C, ∃ m ∈ D, (l.subst σ).Lifts (Taxonomy.IsAncestor taxonomy) m

theorem Subsumes.upTo {C D : Clause} (h : C.Subsumes D) (taxonomy : Option Taxonomy) :
    C.SubsumesUpTo taxonomy D := by
  rcases h with ⟨σ, hσ⟩
  exact ⟨σ, fun l hl => ⟨l.subst σ, hσ l hl, rfl, .refl (Taxonomy.IsAncestor.refl taxonomy) _⟩⟩

theorem subsumesUpTo_none {C D : Clause} : C.SubsumesUpTo none D ↔ C.Subsumes D := by
  constructor
  · intro h
    rcases h with ⟨σ, hσ⟩
    refine ⟨σ, fun l hl => ?_⟩
    rcases hσ l hl with ⟨m, hm, hsign, hlift⟩
    rw [Literal.eq_of_toTerm_eq hsign hlift.eq]
    exact hm
  · intro h
    exact h.upTo none

theorem Subsumes.trans_upTo {taxonomy : Option Taxonomy} {B C D : Clause} (h : B.Subsumes C)
    (k : C.SubsumesUpTo taxonomy D) : B.SubsumesUpTo taxonomy D := by
  rcases h with ⟨σ, hσ⟩
  rcases k with ⟨τ, hτ⟩
  refine ⟨fun x => (σ x).subst τ, fun l hl => ?_⟩
  rw [← Literal.subst_subst]
  exact hτ _ (hσ l hl)

/-!
# Reading back an input

A variable of the generalization is read as the term that it stands for on one side.  What is read
is the literal of that side, except where an ancestor stands.
-/

section Reading

variable {taxonomy : Option Taxonomy} {A B D G : Clause} {φ : Term → Term → Term}

theorem IsGeneralization.subsumesUpTo_side
    (h : IsGeneralization (Taxonomy.rule taxonomy) A B G φ)
    (hapart : NamesApart (Taxonomy.rule taxonomy) A B φ) (side : Term × Term → Term)
    (hsame : ∀ t, side (t, t) = t)
    (hside : ∀ x p q, Aligned A B p → Aligned A B q → KeepsVar x p → KeepsVar x q →
      side p = side q)
    (hlift : ∀ a b c, Taxonomy.rule taxonomy a b = some c →
      (Term.const c).Lifts (Taxonomy.IsAncestor taxonomy) (side (.const a, .const b)))
    (hD : ∀ l ∈ A, ∀ m ∈ B, l.Compatible m → l.combine (fun a b => side (a, b)) m ∈ D) :
    G.SubsumesUpTo taxonomy D := by
  rcases h.exists_reading hapart side (fun c _ => hsame (.const c)) hside with ⟨θ, hθ⟩
  refine ⟨θ, fun g hg => ?_⟩
  rcases (h.mem_iff g).mp hg with ⟨l, hl, m, hm, hlm, rfl⟩
  refine ⟨_, hD l hl m hm hlm, ?_⟩
  rw [Literal.subst_combine hlm]
  refine Literal.Lifts.combine hlm fun p hp => ?_
  rcases hθ p ⟨l, hl, m, hm, hlm, hp⟩ with hread | ⟨a, b, c, rfl, hrule, hc⟩
  · rw [hread]
    exact .refl (Taxonomy.IsAncestor.refl taxonomy) _
  · rw [hc]
    exact hlift a b c hrule

theorem IsGeneralization.subsumesUpTo_fst
    (h : IsGeneralization (Taxonomy.rule taxonomy) A B G φ)
    (hapart : NamesApart (Taxonomy.rule taxonomy) A B φ)
    (hside : ∀ x p q, Aligned A B p → Aligned A B q → KeepsVar x p → KeepsVar x q →
      p.1 = q.1) : G.SubsumesUpTo taxonomy A := by
  apply h.subsumesUpTo_side hapart Prod.fst (fun _ => rfl) hside
  · intro a b c hrule
    exact .const (Taxonomy.isAncestor_of_rule hrule).left
  · intro l hl m hm hlm
    exact (Literal.combine_left hlm).symm ▸ hl

theorem IsGeneralization.subsumesUpTo_snd
    (h : IsGeneralization (Taxonomy.rule taxonomy) A B G φ)
    (hapart : NamesApart (Taxonomy.rule taxonomy) A B φ)
    (hside : ∀ x p q, Aligned A B p → Aligned A B q → KeepsVar x p → KeepsVar x q →
      p.2 = q.2) : G.SubsumesUpTo taxonomy B := by
  apply h.subsumesUpTo_side hapart Prod.snd (fun _ => rfl) hside
  · intro a b c hrule
    exact .const (Taxonomy.isAncestor_of_rule hrule).right
  · intro l hl m hm hlm
    exact (Literal.combine_right hlm).symm ▸ hm

theorem IsGeneralization.subsumesUpTo_both
    (h : IsGeneralization (Taxonomy.rule taxonomy) A B G φ)
    (hapart : NamesApart (Taxonomy.rule taxonomy) A B φ) (habsorb : AbsorbsConsistently A B) :
    G.SubsumesUpTo taxonomy A ∧ G.SubsumesUpTo taxonomy B := by
  constructor
  · apply h.subsumesUpTo_fst hapart
    intro x p q hp hq hpx hqx
    rw [habsorb x p q hp hq hpx hqx]
  · apply h.subsumesUpTo_snd hapart
    intro x p q hp hq hpx hqx
    rw [habsorb x p q hp hq hpx hqx]

theorem IsGeneralization.subsumes_both (h : IsGeneralization noAncestor A B G φ)
    (hapart : NamesApart noAncestor A B φ) (habsorb : AbsorbsConsistently A B) :
    G.Subsumes A ∧ G.Subsumes B := by
  have hnone : IsGeneralization (Taxonomy.rule none) A B G φ := h
  rw [← subsumesUpTo_none, ← subsumesUpTo_none]
  exact hnone.subsumesUpTo_both hapart habsorb

theorem Aligned.eq_left_of_keepsVar (hB : B.Ground) {x : String} {p q : Term × Term}
    (hp : Aligned A B p) (hq : Aligned A B q) (hpx : KeepsVar x p) (hqx : KeepsVar x q) :
    p.1 = q.1 := by
  have hvar : ∀ p, Aligned A B p → KeepsVar x p → p.1 = .var x := by
    intro p hp hpx
    cases hpx with
    | same => rfl
    | left c => rfl
    | right c =>
        have hx := hp.vars_subset.right (List.mem_singleton.mpr rfl : x ∈ (Term.var x).vars)
        rw [hB] at hx
        cases hx
  rw [hvar p hp hpx, hvar q hq hqx]

theorem IsGeneralization.subsumesUpTo_left
    (h : IsGeneralization (Taxonomy.rule taxonomy) A B G φ)
    (hapart : NamesApart (Taxonomy.rule taxonomy) A B φ) (hB : B.Ground) :
    G.SubsumesUpTo taxonomy A :=
  h.subsumesUpTo_fst hapart fun _ _ _ hp hq hpx hqx => hp.eq_left_of_keepsVar hB hq hpx hqx

end Reading

/-!
# Clauses without absorption
-/

def Absorbs : Term × Term → Prop
  | (.var _, .const _) => True
  | (.const _, .var _) => True
  | _ => False

instance : DecidablePred Absorbs
  | (.var _, .const _) => isTrue trivial
  | (.const _, .var _) => isTrue trivial
  | (.var _, .var _) => isFalse id
  | (.var _, .app _ _) => isFalse id
  | (.const _, .const _) => isFalse id
  | (.const _, .app _ _) => isFalse id
  | (.app _ _, _) => isFalse id

def NeverAbsorbs (A B : Clause) : Prop :=
  ∀ p, Aligned A B p → ¬ Absorbs p

theorem neverAbsorbs_iff {A B : Clause} :
    NeverAbsorbs A B ↔ ∀ p ∈ alignedPairs A B, ¬ Absorbs p := by
  simp only [NeverAbsorbs, mem_alignedPairs]

instance (A B : Clause) : Decidable (NeverAbsorbs A B) :=
  decidable_of_iff' _ neverAbsorbs_iff

theorem NeverAbsorbs.absorbsConsistently {A B : Clause} (h : NeverAbsorbs A B) :
    AbsorbsConsistently A B := by
  have hsame : ∀ x p, Aligned A B p → KeepsVar x p → p = (.var x, .var x) := by
    intro x p hp hpx
    cases hpx with
    | same => rfl
    | left c => exact absurd trivial (h _ hp)
    | right c => exact absurd trivial (h _ hp)
  intro x p q hp hq hpx hqx
  rw [hsame x p hp hpx, hsame x q hq hqx]

theorem neverAbsorbs_of_ground {A B : Clause} (hA : A.Ground) (hB : B.Ground) :
    NeverAbsorbs A B := by
  intro p hp habsorbs
  rcases hp.vars_subset with ⟨hleft, hright⟩
  rw [hA] at hleft
  rw [hB] at hright
  rcases p with ⟨s, t⟩
  cases s with
  | var x => cases hleft (List.mem_singleton.mpr rfl : x ∈ (Term.var x).vars)
  | const c =>
      cases t with
      | var y => cases hright (List.mem_singleton.mpr rfl : y ∈ (Term.var y).vars)
      | const d => exact habsorbs
      | app g ts => exact habsorbs
  | app f ss => exact habsorbs

/-- A generalization can be read back on both sides, up to ancestors, when no variable stands
opposite a constant; in ground clauses none does. -/
theorem subsumesUpTo_of_generalize_eq_ok (taxonomy : Option Taxonomy) (A B : Clause)
    (supply : NameSupply) {G : Clause}
    (hG : (A.generalize (Taxonomy.rule taxonomy) B supply).1 = .ok G)
    (hdraws : (A.generalize (Taxonomy.rule taxonomy) B supply).2.count <
      supply.count + NameSupply.period) :
    (NeverAbsorbs A B → G.SubsumesUpTo taxonomy A ∧ G.SubsumesUpTo taxonomy B ∧
      (taxonomy = none → G.subsumes A = true ∧ G.subsumes B = true)) ∧
    (A.Ground → B.Ground → NeverAbsorbs A B) := by
  refine ⟨fun habsorbs => ?_, neverAbsorbs_of_ground⟩
  rcases exists_isGeneralization (Prod.ext hG rfl) with ⟨φ, hgen, hapart⟩
  rcases hgen.subsumesUpTo_both (hapart hdraws.le) habsorbs.absorbsConsistently with ⟨hA, hB⟩
  refine ⟨hA, hB, ?_⟩
  intro hnone
  rw [hnone, subsumesUpTo_none] at hA hB
  exact ⟨subsumes_iff.mpr hA, subsumes_iff.mpr hB⟩

def pets : Option Taxonomy :=
  (Taxonomy.ofFacts [Taxonomy.isa "dog" "mammal", Taxonomy.isa "cat" "mammal",
    Taxonomy.isa "mammal" "animal"]).toOption

def dogOwner : Clause :=
  ofList [⟨true, "owns", [.var "X", .app ⟨"pair", 2⟩ [.const "dog", .const "cat"]]⟩,
    ⟨false, "likes", [.var "V1", .const "mammal"]⟩]

def catOwner : Clause :=
  ofList [⟨true, "owns", [.var "Y", .app ⟨"pair", 2⟩ [.const "cat", .const "dog"]]⟩,
    ⟨false, "likes", [.app ⟨"friend", 1⟩ [.var "V1"], .const "dog"]⟩]

/-- Two constants become one ancestor, two others an ancestor that is not their closest, and a
variable of both clauses looks like a new one. -/
theorem subsumesUpTo_owners :
    (∃ G, (dogOwner.generalize (Taxonomy.rule pets) catOwner default).1 = .ok G ∧
      G.literals = [⟨true, "owns", [.var "V2",
          .app ⟨"pair", 2⟩ [.const "mammal", .const "mammal"]]⟩,
        ⟨false, "likes", [.var "V3", .const "animal"]⟩] ∧
      G.SubsumesUpTo pets dogOwner ∧ G.SubsumesUpTo pets catOwner) ∧
    ∃ G, (dogOwner.generalize (Taxonomy.rule none) catOwner default).1 = .ok G ∧
      G.subsumes dogOwner = true ∧ G.subsumes catOwner = true := by
  have habsorbs : NeverAbsorbs dogOwner catOwner := by decide
  constructor
  · have hG : (dogOwner.generalize (Taxonomy.rule pets) catOwner default).1 =
        .ok (ofList [⟨true, "owns", [.var "V2",
            .app ⟨"pair", 2⟩ [.const "mammal", .const "mammal"]]⟩,
          ⟨false, "likes", [.var "V3", .const "animal"]⟩]) := by decide
    rcases (subsumesUpTo_of_generalize_eq_ok pets dogOwner catOwner default hG
      (by decide)).left habsorbs with ⟨hdog, hcat, -⟩
    exact ⟨_, hG, by decide, hdog, hcat⟩
  · have hG : (dogOwner.generalize (Taxonomy.rule none) catOwner default).1 =
        .ok (ofList [⟨true, "owns", [.var "V2",
            .app ⟨"pair", 2⟩ [.var "V3", .var "V4"]]⟩,
          ⟨false, "likes", [.var "V5", .var "V6"]⟩]) := by decide
    rcases (subsumesUpTo_of_generalize_eq_ok none dogOwner catOwner default hG
      (by decide)).left habsorbs with ⟨-, -, hplain⟩
    exact ⟨_, hG, hplain rfl⟩

end Clause

end ClauseInduction
