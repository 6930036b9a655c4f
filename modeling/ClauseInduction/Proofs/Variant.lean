import Mathlib.Data.List.Nodup
import Mathlib.Data.List.Perm.Subperm
import ClauseInduction.Variant
import ClauseInduction.Proofs.Subsumption

/-!
# Variants and their search

Being a variant is an equivalence of clauses: a renaming that is one-to-one on the variables of a
clause has an inverse on its image.  The search threads pairs of names, which constrain a renaming
and its inverse at the same time, so it fails only when no pairing of the literals exists.
-/

namespace ClauseInduction

/-!
# The relation
-/

namespace Clause

/-- A renaming that can be undone literal by literal.  Both clauses play the same part. -/
theorem isVariant_iff_exists_inverse {C D : Clause} :
    C.IsVariant D ↔ ∃ ρ ρ' : String → String,
      (∀ l ∈ C, l.subst (relabel ρ) ∈ D ∧ (l.subst (relabel ρ)).subst (relabel ρ') = l) ∧
      (∀ m ∈ D, m.subst (relabel ρ') ∈ C ∧ (m.subst (relabel ρ')).subst (relabel ρ) = m) := by
  constructor
  · intro h
    rcases h with ⟨ρ, hinj, himage⟩
    rcases InjectiveOn.exists_inverse hinj with ⟨ρ', hinverse⟩
    have hundo : ∀ l ∈ C, (l.subst (relabel ρ)).subst (relabel ρ') = l := by
      intro l hl
      apply Literal.subst_relabel_subst_relabel
      intro x hx
      exact hinverse x (mem_vars.mpr ⟨l, hl, hx⟩)
    refine ⟨ρ, ρ', fun l hl => ⟨(himage _).mpr ⟨l, hl, rfl⟩, hundo l hl⟩, ?_⟩
    intro m hm
    rcases (himage m).mp hm with ⟨l, hl, rfl⟩
    change (l.subst (relabel ρ)).subst (relabel ρ') ∈ C ∧
      ((l.subst (relabel ρ)).subst (relabel ρ')).subst (relabel ρ) = l.subst (relabel ρ)
    rw [hundo l hl]
    exact ⟨hl, rfl⟩
  · intro h
    rcases h with ⟨ρ, ρ', hC, hD⟩
    refine ⟨ρ, ?_, fun m => ⟨fun hm => ⟨_, hD m hm⟩, ?_⟩⟩
    · have hundo : ∀ x ∈ C.vars, ρ' (ρ x) = x := by
        intro x hx
        rcases mem_vars.mp hx with ⟨l, hl, hxl⟩
        have hl' : l.subst (fun x => (relabel ρ x).subst (relabel ρ')) = l.subst .var := by
          rw [← Literal.subst_subst, (hC l hl).right, Literal.subst_var]
        exact Term.var.inj (Literal.subst_eq_subst_iff.mp hl' x hxl)
      intro x hx y hy h
      rw [← hundo x hx, h, hundo y hy]
    · intro hm
      rcases hm with ⟨l, hl, rfl⟩
      exact (hC l hl).left

theorem IsVariant.symm {C D : Clause} (h : C.IsVariant D) : D.IsVariant C := by
  rcases isVariant_iff_exists_inverse.mp h with ⟨ρ, ρ', hC, hD⟩
  exact isVariant_iff_exists_inverse.mpr ⟨ρ', ρ, hD, hC⟩

theorem IsVariant.trans {C D E : Clause} (h : C.IsVariant D) (h' : D.IsVariant E) :
    C.IsVariant E := by
  rcases isVariant_iff_exists_inverse.mp h with ⟨ρ, ρ', hC, hD⟩
  rcases isVariant_iff_exists_inverse.mp h' with ⟨τ, τ', hD', hE⟩
  refine isVariant_iff_exists_inverse.mpr ⟨fun x => τ (ρ x), fun x => ρ' (τ' x), ?_, ?_⟩
  · intro l hl
    rcases hC l hl with ⟨hlD, hback⟩
    rcases hD' _ hlD with ⟨hlE, hback'⟩
    rw [← Literal.subst_relabel_relabel ρ τ, ← Literal.subst_relabel_relabel τ' ρ', hback', hback]
    exact ⟨hlE, rfl⟩
  · intro m hm
    rcases hE m hm with ⟨hmD, hback'⟩
    rcases hD _ hmD with ⟨hmC, hback⟩
    rw [← Literal.subst_relabel_relabel τ' ρ', ← Literal.subst_relabel_relabel ρ τ, hback, hback']
    exact ⟨hmC, rfl⟩

theorem IsVariant.subsumes {C D : Clause} (h : C.IsVariant D) : C.Subsumes D := by
  rcases h with ⟨ρ, -, himage⟩
  exact ⟨relabel ρ, fun l hl => (himage _).mpr ⟨l, hl, rfl⟩⟩

theorem SameLiterals.mem_iff_exists_subst_var {C D : Clause} (h : C.SameLiterals D) (m : Literal) :
    m ∈ D ↔ ∃ l ∈ C, l.subst .var = m := by
  constructor
  · intro hm
    exact ⟨m, h.right m hm, m.subst_var⟩
  · intro hm
    rcases hm with ⟨l, hl, rfl⟩
    exact l.subst_var.symm ▸ h.left l hl

theorem SameLiterals.isVariant {C D : Clause} (h : C.SameLiterals D) : C.IsVariant D :=
  ⟨id, fun _ _ _ _ hxy => hxy, h.mem_iff_exists_subst_var⟩

theorem IsVariant.refl (C : Clause) : C.IsVariant C :=
  SameLiterals.isVariant ⟨fun _ hl => hl, fun _ hl => hl⟩

theorem IsVariant.perm {C D : Clause} (h : C.IsVariant D) :
    ∃ ρ ρ' : String → String, (∀ l ∈ C, (l.subst (relabel ρ)).subst (relabel ρ') = l) ∧
      (C.literals.map (Literal.subst (relabel ρ))).Perm D.literals := by
  rcases isVariant_iff_exists_inverse.mp h with ⟨ρ, ρ', hC, hD⟩
  have hnodup : (C.literals.map (Literal.subst (relabel ρ))).Nodup := by
    refine List.Nodup.map_on ?_ C.nodup
    intro l hl m hm hlm
    rw [← (hC l hl).right, hlm, (hC m hm).right]
  refine ⟨ρ, ρ', fun l hl => (hC l hl).right, ?_⟩
  rw [List.perm_ext_iff_of_nodup hnodup D.nodup]
  intro m
  rw [List.mem_map]
  constructor
  · intro hm
    rcases hm with ⟨l, hl, rfl⟩
    exact (hC l hl).left
  · intro hm
    exact ⟨_, hD m hm⟩

theorem IsVariant.size_eq {C D : Clause} (h : C.IsVariant D) : C.size = D.size := by
  rcases h.perm with ⟨ρ, ρ', -, hperm⟩
  simpa [size] using hperm.length_eq

end Clause

/-!
# Partial renamings

A list of pairs of names is read as a constraint on a renaming `ρ` and a renaming `ρ'` that goes
back.  Only the first pair of a name counts, so that every list can be met.
-/

namespace Renaming

def Fits (r : Renaming) (ρ ρ' : String → String) : Prop :=
  (∀ p, r.find? (fun q => q.1 = p.1) = some p → ρ p.1 = p.2) ∧
  (∀ p, r.find? (fun q => q.2 = p.2) = some p → ρ' p.2 = p.1)

theorem fits_nil (ρ ρ' : String → String) : Fits [] ρ ρ' :=
  ⟨nofun, nofun⟩

theorem exists_fits (r : Renaming) : ∃ ρ ρ', r.Fits ρ ρ' := by
  refine ⟨fun x => ((r.find? (fun q => q.1 = x)).map Prod.snd).getD x,
    fun y => ((r.find? (fun q => q.2 = y)).map Prod.fst).getD y, ?_, ?_⟩
  · intro p hp
    simp [hp]
  · intro p hp
    simp [hp]

theorem fits_cons {r : Renaming} {x y : String} {ρ ρ' : String → String}
    (h : r.find? (fun p => p.1 = x || p.2 = y) = none) :
    Fits ((x, y) :: r) ρ ρ' ↔ r.Fits ρ ρ' ∧ ρ x = y ∧ ρ' y = x := by
  have hfresh : ∀ p ∈ r, p.1 ≠ x ∧ p.2 ≠ y := by
    simpa using h
  constructor
  · intro hfits
    rcases hfits with ⟨hfit, hfit'⟩
    refine ⟨⟨fun p hp => ?_, fun p hp => ?_⟩, hfit (x, y) (by simp), hfit' (x, y) (by simp)⟩
    · apply hfit
      rw [List.find?_cons_of_neg (by simpa using (hfresh p (List.mem_of_find?_eq_some hp)).1.symm)]
      exact hp
    · apply hfit'
      rw [List.find?_cons_of_neg (by simpa using (hfresh p (List.mem_of_find?_eq_some hp)).2.symm)]
      exact hp
  · intro hboth
    rcases hboth with ⟨⟨hfit, hfit'⟩, hx, hy⟩
    constructor
    · intro p hp
      by_cases hpx : x = p.1
      · rw [List.find?_cons_of_pos (by simpa using hpx)] at hp
        cases hp
        exact hx
      · rw [List.find?_cons_of_neg (by simpa using hpx)] at hp
        exact hfit p hp
    · intro p hp
      by_cases hpy : y = p.2
      · rw [List.find?_cons_of_pos (by simpa using hpy)] at hp
        cases hp
        exact hy
      · rw [List.find?_cons_of_neg (by simpa using hpy)] at hp
        exact hfit' p hp

theorem find?_of_find?_or {r : Renaming} {p : String × String} {P Q : String × String → Bool}
    (h : r.find? P = some p) (hQ : Q p = true) (hPQ : ∀ q, Q q = true → P q = true) :
    r.find? Q = some p := by
  rcases List.find?_eq_some_iff_append.mp h with ⟨-, front, back, rfl, hfront⟩
  refine List.find?_eq_some_iff_append.mpr ⟨hQ, front, back, rfl, fun q hq => ?_⟩
  cases hQq : Q q with
  | false => rfl
  | true => simpa [hPQ q hQq] using hfront q hq

theorem extend?_solutions (x y : String) (r : Renaming) (ρ ρ' : String → String) :
    (∃ r' ∈ r.extend? x y, r'.Fits ρ ρ') ↔ r.Fits ρ ρ' ∧ ρ x = y ∧ ρ' y = x := by
  rw [extend?]
  cases hfind : r.find? (fun p => p.1 = x || p.2 = y) with
  | none => simp [fits_cons hfind]
  | some p =>
      have hforward : p.1 = x → r.find? (fun q => q.1 = p.1) = some p := fun hpx =>
        find?_of_find?_or hfind (by simp) (by simp +contextual [hpx])
      have hbackward : p.2 = y → r.find? (fun q => q.2 = p.2) = some p := fun hpy =>
        find?_of_find?_or hfind (by simp) (by simp +contextual [hpy])
      have hp : p.1 = x ∨ p.2 = y := by
        simpa using List.find?_some hfind
      by_cases hxy : p = (x, y)
      · subst hxy
        simp only [if_true, Option.mem_def, Option.some.injEq, exists_eq_left', iff_self_and]
        intro hfits
        rcases hfits with ⟨hfit, hfit'⟩
        exact ⟨hfit _ (hforward rfl), hfit' _ (hbackward rfl)⟩
      · simp only [hxy, if_false, Option.mem_def, reduceCtorEq, false_and, exists_false,
          false_iff]
        intro hboth
        rcases hboth with ⟨⟨hfit, hfit'⟩, hx, hy⟩
        apply hxy
        rcases hp with hpx | hpy
        · have hpy : p.2 = y := by rw [← hfit p (hforward hpx), hpx, hx]
          exact Prod.ext hpx hpy
        · have hpx : p.1 = x := by rw [← hfit' p (hbackward hpy), hpy, hy]
          exact Prod.ext hpx hpy

end Renaming

/-!
# Renaming terms and literals

As for matching, a success adds exactly the equations of the two terms, here in both directions.
-/

namespace Term

theorem renameList?_solutions {ss : List Term} {ρ ρ' : String → String}
    (ih : ∀ s ∈ ss, ∀ (t : Term) (r : Renaming), (∃ r' ∈ rename? s t r, r'.Fits ρ ρ') ↔
      r.Fits ρ ρ' ∧ s.subst (relabel ρ) = t ∧ t.subst (relabel ρ') = s)
    (ts : List Term) (r : Renaming) :
    (∃ r' ∈ renameList? ss ts r, r'.Fits ρ ρ') ↔
      r.Fits ρ ρ' ∧ ss.map (subst (relabel ρ)) = ts ∧ ts.map (subst (relabel ρ')) = ss := by
  induction ss generalizing ts r with
  | nil =>
      cases ts with
      | nil => simp [renameList?]
      | cons t ts => simp [renameList?]
  | cons s ss ihss =>
      cases ts with
      | nil => simp [renameList?]
      | cons t ts =>
          have hs := ih s (by simp) t r
          have htail := ihss (fun u hu => ih u (by simp [hu])) ts
          have hsplit : (r.Fits ρ ρ' ∧ (s :: ss).map (subst (relabel ρ)) = t :: ts ∧
              (t :: ts).map (subst (relabel ρ')) = s :: ss) ↔
              (r.Fits ρ ρ' ∧ s.subst (relabel ρ) = t ∧ t.subst (relabel ρ') = s) ∧
              ss.map (subst (relabel ρ)) = ts ∧ ts.map (subst (relabel ρ')) = ss := by
            simp only [List.map_cons, List.cons.injEq]
            tauto
          rw [hsplit, ← hs, renameList?]
          cases hrename : rename? s t r with
          | none => simp
          | some r' =>
              simp only [Option.mem_def, Option.some.injEq, exists_eq_left']
              exact htail r'

theorem rename?_solutions (s t : Term) (r : Renaming) (ρ ρ' : String → String) :
    (∃ r' ∈ rename? s t r, r'.Fits ρ ρ') ↔
      r.Fits ρ ρ' ∧ s.subst (relabel ρ) = t ∧ t.subst (relabel ρ') = s := by
  induction s generalizing t r with
  | var x =>
      cases t with
      | var y => simpa [rename?, subst, relabel] using Renaming.extend?_solutions x y r ρ ρ'
      | const d => simp [rename?, subst, relabel]
      | app g ts => simp [rename?, subst, relabel]
  | const c =>
      cases t with
      | var y => simp [rename?, subst]
      | const d =>
          by_cases hcd : c = d
          · simp [rename?, subst, hcd]
          · simp [rename?, subst, hcd]
      | app g ts => simp [rename?, subst]
  | app f ss ih =>
      cases t with
      | var y => simp [rename?, subst]
      | const d => simp [rename?, subst]
      | app g ts =>
          by_cases hfg : f = g
          · simpa [rename?, subst_app, hfg] using renameList?_solutions ih ts r
          · simp [rename?, subst_app, hfg]

end Term

theorem Literal.rename?_solutions (l m : Literal) (r : Renaming) (ρ ρ' : String → String) :
    (∃ r' ∈ l.rename? m r, r'.Fits ρ ρ') ↔
      r.Fits ρ ρ' ∧ l.subst (relabel ρ) = m ∧ m.subst (relabel ρ') = l := by
  rw [Literal.subst_eq_iff, Literal.subst_eq_iff, Literal.rename?]
  by_cases hlm : l.Comparable m
  · simpa [hlm, hlm.symm] using
      Term.renameList?_solutions (fun s _ t r => Term.rename?_solutions s t r ρ ρ') m.args r
  · simp [hlm]

/-!
# The search
-/

namespace Clause

theorem pairsUp_iff {ls unused : List Literal} {r : Renaming} :
    pairsUp ls unused r = true ↔ ∃ ρ ρ', r.Fits ρ ρ' ∧
      (∀ l ∈ ls, (l.subst (relabel ρ)).subst (relabel ρ') = l) ∧
      (ls.map (Literal.subst (relabel ρ))).Subperm unused := by
  induction ls generalizing unused r with
  | nil =>
      rcases r.exists_fits with ⟨ρ, ρ', hfit⟩
      simp only [pairsUp, true_iff]
      exact ⟨ρ, ρ', hfit, by simp, List.nil_subperm⟩
  | cons l ls ih =>
      rw [pairsUp, List.any_eq_true]
      constructor
      · intro hany
        rcases hany with ⟨m, hm, hrest⟩
        cases hrename : l.rename? m r with
        | none => simp [hrename] at hrest
        | some r' =>
            rw [hrename] at hrest
            rcases ih.mp hrest with ⟨ρ, ρ', hfit', hundo, hsub⟩
            rcases (Literal.rename?_solutions l m r ρ ρ').mp ⟨r', hrename, hfit'⟩ with
              ⟨hfit, rfl, hback⟩
            refine ⟨ρ, ρ', hfit, List.forall_mem_cons.mpr ⟨hback, hundo⟩, ?_⟩
            have hcons := (List.subperm_cons (l.subst (relabel ρ))).mpr hsub
            exact hcons.trans (List.perm_cons_erase hm).symm.subperm
      · intro hsolution
        rcases hsolution with ⟨ρ, ρ', hfit, hundo, hsub⟩
        rcases List.forall_mem_cons.mp hundo with ⟨hback, hundo⟩
        have hm : l.subst (relabel ρ) ∈ unused := hsub.subset (by simp)
        rcases (Literal.rename?_solutions l _ r ρ ρ').mpr ⟨hfit, rfl, hback⟩ with
          ⟨r', hrename, hfit'⟩
        refine ⟨l.subst (relabel ρ), hm, ?_⟩
        rw [Option.mem_def.mp hrename]
        refine ih.mpr ⟨ρ, ρ', hfit', hundo, ?_⟩
        apply (List.subperm_cons (l.subst (relabel ρ))).mp
        exact hsub.trans (List.perm_cons_erase hm).subperm

theorem isVariant_iff {C D : Clause} : C.isVariant D = true ↔ C.IsVariant D := by
  rw [isVariant, Bool.and_eq_true, beq_iff_eq, pairsUp_iff]
  constructor
  · intro h
    rcases h with ⟨hsize, ρ, ρ', -, hundo, hsub⟩
    have hperm : (C.literals.map (Literal.subst (relabel ρ))).Perm D.literals :=
      hsub.perm_of_length_le (by simpa [size] using hsize.ge)
    refine isVariant_iff_exists_inverse.mpr ⟨ρ, ρ', fun l hl => ⟨?_, hundo l hl⟩, ?_⟩
    · exact hperm.subset (List.mem_map_of_mem hl)
    · intro m hm
      rcases List.mem_map.mp (hperm.symm.subset hm) with ⟨l, hl, rfl⟩
      rw [hundo l hl]
      exact ⟨hl, rfl⟩
  · intro h
    rcases h.perm with ⟨ρ, ρ', hundo, hperm⟩
    exact ⟨h.size_eq, ρ, ρ', Renaming.fits_nil ρ ρ', hundo, hperm.subperm⟩

theorem equivalence_isVariant : Equivalence fun C D : Clause => C.isVariant D = true := by
  constructor
  · intro C
    exact isVariant_iff.mpr (IsVariant.refl C)
  · intro C D h
    exact isVariant_iff.mpr (isVariant_iff.mp h).symm
  · intro C D E h h'
    exact isVariant_iff.mpr ((isVariant_iff.mp h).trans (isVariant_iff.mp h'))

theorem isVariant_eq_of_sameLiterals {C C' D D' : Clause} (hC : C.SameLiterals C')
    (hD : D.SameLiterals D') : C.isVariant D = C'.isVariant D' := by
  have hCC' := hC.isVariant
  have hDD' := hD.isVariant
  rw [Bool.eq_iff_iff, isVariant_iff, isVariant_iff]
  constructor
  · intro h
    exact hCC'.symm.trans (h.trans hDD')
  · intro h
    exact hCC'.trans (h.trans hDD'.symm)

/-- The search decides equality up to a one-to-one renaming of variables, which is an equivalence
and does not look at the order of the literals. -/
theorem isVariant_iff_exists_injectiveOn :
    (∀ C D : Clause, C.isVariant D = true ↔ ∃ ρ : String → String, InjectiveOn ρ C.vars ∧
      ∀ m, m ∈ D ↔ ∃ l ∈ C, l.subst (relabel ρ) = m) ∧
    (Equivalence fun C D : Clause => C.isVariant D = true) ∧
    ∀ C C' D D' : Clause, C.SameLiterals C' → D.SameLiterals D' →
      C.isVariant D = C'.isVariant D' :=
  ⟨fun _ _ => isVariant_iff, equivalence_isVariant,
    fun _ _ _ _ hC hD => isVariant_eq_of_sameLiterals hC hD⟩

def edge (s t : Term) : Literal :=
  ⟨true, "edge", [s, .app ⟨"to", 1⟩ [t]]⟩

def walk (x y z : String) : Clause :=
  ofList [edge (.var x) (.var y), edge (.var y) (.var z)]

def walkBack (x y z : String) : Clause :=
  ofList [edge (.var y) (.var z), edge (.var x) (.var y)]

/-- The first pairing of the edges has to be undone, and a walk that stands still at its end is no
variant although it is an instance. -/
theorem isVariant_walks :
    (∃ ρ : String → String, InjectiveOn ρ (walk "X" "Y" "Z").vars ∧
      ∀ m, m ∈ walkBack "Y" "Z" "X" ↔
        ∃ l ∈ walk "X" "Y" "Z", l.subst (relabel ρ) = m) ∧
    (¬ ∃ ρ : String → String, InjectiveOn ρ (walk "X" "Y" "Z").vars ∧
      ∀ m, m ∈ walk "A" "B" "B" ↔ ∃ l ∈ walk "X" "Y" "Z", l.subst (relabel ρ) = m) ∧
    (walk "Y" "Z" "X").SameLiterals (walkBack "Y" "Z" "X") ∧
    (walk "Y" "Z" "X").isVariant (walk "X" "Y" "Z") = true := by
  rcases isVariant_iff_exists_injectiveOn with ⟨hiff, hequivalence, hsame⟩
  have hback : (walk "X" "Y" "Z").isVariant (walkBack "Y" "Z" "X") = true := by decide
  have hlist : (walk "Y" "Z" "X").SameLiterals (walkBack "Y" "Z" "X") := by decide
  refine ⟨(hiff _ _).mp hback, ?_, hlist, ?_⟩
  · intro h
    have hstill := (hiff _ _).mpr h
    revert hstill
    decide
  · have hturned := hsame _ _ (walk "X" "Y" "Z") (walk "X" "Y" "Z") hlist (by decide)
    rw [hturned]
    exact hequivalence.symm hback

end Clause

end ClauseInduction
