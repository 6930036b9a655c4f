import Mathlib.Tactic.NormNum
import ClauseInduction.Json.Numeral

/-!
# Numerals of counts

A count is written with its decimal digits alone, and the first of them is a zero only for zero
itself.  So a scan takes all of them and nothing behind them, and a count of 64 bits is far below
the greatest double.
-/

namespace ClauseInduction

namespace Json

namespace Numeral

/-!
# Digits of a count
-/

theorem chars_ofNat (n : Nat) : (ofNat n).chars = Nat.toDigits 10 n := by
  simp [chars, ofNat]

theorem isDigit_of_mem_chars_ofNat {n : Nat} {c : Char} (h : c ∈ (ofNat n).chars) :
    c.isDigit = true := by
  rw [chars_ofNat] at h
  exact Nat.isDigit_of_mem_toDigits (by decide) (by decide) h

theorem eq_nil_of_toDigits_eq_zero_cons {n : Nat} {ds : List Char}
    (h : Nat.toDigits 10 n = '0' :: ds) : ds = [] := by
  induction n using Nat.strong_induction_on generalizing ds with
  | h n ih =>
      by_cases hn : n < 10
      · rw [Nat.toDigits_of_lt_base hn] at h
        exact (List.cons.inj h).right.symm
      · have hlast := Nat.toDigits_of_base_le (by decide) (Nat.le_of_not_lt hn)
        cases hfront : Nat.toDigits 10 (n / 10) with
        | nil => exact absurd hfront Nat.toDigits_ne_nil
        | cons c cs =>
            rw [h, hfront, List.cons_append] at hlast
            have hc : c = '0' := (List.cons.inj hlast).left.symm
            subst hc
            have hcs : cs = [] := ih (n / 10) (by omega) hfront
            subst hcs
            -- a front part that is a single zero is the number zero
            have hvalue := Nat.ofDigitChars_ten_toDigits (n := n / 10)
            rw [hfront] at hvalue
            have hzero : n / 10 = 0 := hvalue.symm
            omega

theorem exists_chars_ofNat_eq_cons (n : Nat) :
    ∃ d ds, (ofNat n).chars = d :: ds ∧ d.isDigit = true ∧ (d = '0' → ds = []) := by
  cases hchars : (ofNat n).chars with
  | nil =>
      rw [chars_ofNat] at hchars
      exact absurd hchars Nat.toDigits_ne_nil
  | cons d ds =>
      refine ⟨d, ds, rfl, isDigit_of_mem_chars_ofNat (hchars ▸ List.mem_cons_self), ?_⟩
      intro hd
      subst hd
      rw [chars_ofNat] at hchars
      exact eq_nil_of_toDigits_eq_zero_cons hchars

/-!
# Scanning a count
-/

/-- No numeral goes on with this text. -/
def Stops (rest : List Char) : Prop :=
  ∀ c ∈ rest.head?, c.isDigit = false ∧ c ≠ '.' ∧ c ≠ 'e' ∧ c ≠ 'E'

theorem stops_nil : Stops [] :=
  nofun

theorem stops_cons {c : Char} (h : c.isDigit = false ∧ c ≠ '.' ∧ c ≠ 'e' ∧ c ≠ 'E')
    (cs : List Char) : Stops (c :: cs) := by
  intro c' hc'
  cases hc'
  exact h

theorem digits?_append {ds rest : List Char} (hne : ds ≠ []) (hds : ∀ d ∈ ds, d.isDigit = true)
    (hrest : Stops rest) : digits? (ds ++ rest) = .ok (ds, rest) := by
  have htake : (ds ++ rest).takeWhile Char.isDigit = ds := by
    rw [List.takeWhile_append_of_pos hds]
    cases rest with
    | nil => simp
    | cons c cs => simp [(hrest c rfl).left]
  have hdrop : (ds ++ rest).dropWhile Char.isDigit = rest := by
    rw [List.dropWhile_append_of_pos hds]
    cases rest with
    | nil => rfl
    | cons c cs => simp [(hrest c rfl).left]
  rw [digits?, htake, hdrop]
  cases ds with
  | nil => exact absurd rfl hne
  | cons d ds => rfl

theorem fraction?_of_stops {rest : List Char} (h : Stops rest) :
    fraction? rest = .ok (none, rest) := by
  cases rest with
  | nil => rfl
  | cons c cs => simp [fraction?, (h c rfl).right.left]

theorem exponent?_of_stops {rest : List Char} (h : Stops rest) :
    exponent? rest = .ok (none, rest) := by
  cases rest with
  | nil => rfl
  | cons c cs => simp [exponent?, (h c rfl).right.right]

theorem whole?_chars_ofNat (n : Nat) {rest : List Char} (h : Stops rest) :
    whole? ((ofNat n).chars ++ rest) = .ok ((ofNat n).chars, rest) := by
  have hdigits : digits? ((ofNat n).chars ++ rest) = .ok ((ofNat n).chars, rest) := by
    refine digits?_append ?_ (fun d hd => isDigit_of_mem_chars_ofNat hd) h
    rw [chars_ofNat]
    exact Nat.toDigits_ne_nil
  rw [whole?, hdigits]
  rcases exists_chars_ofNat_eq_cons n with ⟨d, ds, hchars, -, hzero⟩
  rw [hchars]
  split
  · rename_i e ds' rest' heq
    cases heq
    cases hzero rfl
  · rfl

theorem scan?_chars_ofNat (n : Nat) {rest : List Char} (h : Stops rest) :
    scan? ((ofNat n).chars ++ rest) = .ok (ofNat n, rest) := by
  have hsign : sign ((ofNat n).chars ++ rest) = (false, (ofNat n).chars ++ rest) := by
    rcases exists_chars_ofNat_eq_cons n with ⟨d, ds, hchars, hdigit, -⟩
    rw [hchars, List.cons_append]
    unfold sign
    split
    · rename_i cs heq
      cases heq
      exact absurd hdigit (by decide)
    · rfl
  have hwhole : (ofNat n).chars = (ofNat n).whole := by
    simp [chars, ofNat]
  simp only [scan?, hsign, whole?_chars_ofNat n h, bind, Except.bind, fraction?_of_stops h,
    exponent?_of_stops h]
  rw [hwhole]
  rfl

/-!
# Range of a count
-/

theorem le_ofDigitChars (cs : List Char) (s : Nat) : s ≤ Nat.ofDigitChars 10 cs s := by
  induction cs generalizing s with
  | nil => exact Nat.le_refl s
  | cons c cs ih =>
      rw [Nat.ofDigitChars_cons]
      exact Nat.le_trans (by omega) (ih _)

theorem absorb_eq {cs : List Char} {s : Nat} (h : Nat.ofDigitChars 10 cs s < Nat.pow 2 64) :
    absorb s cs = (Nat.ofDigitChars 10 cs s, cs.length) := by
  induction cs generalizing s with
  | nil => rfl
  | cons c cs ih =>
      rw [Nat.ofDigitChars_cons] at h ⊢
      have hstep : 10 * s + digitValue c < Nat.pow 2 64 :=
        Nat.lt_of_le_of_lt (le_ofDigitChars cs _) h
      rw [absorb, if_pos hstep, digitValue, ih h, List.length_cons]

theorem scaled_ofNat {n : Nat} (h : n < Nat.pow 2 64) : (ofNat n).scaled = (n, 0) := by
  have hvalue : Nat.ofDigitChars 10 (ofNat n).whole 0 = n := by
    simp [ofNat, Nat.ofDigitChars_ten_toDigits]
  have habsorb : absorb 0 (ofNat n).whole = (n, (ofNat n).whole.length) := by
    rw [absorb_eq (by rw [hvalue]; exact h), hvalue]
  have hfraction : (ofNat n).fraction = none := rfl
  have hexponent : (ofNat n).exponent = none := rfl
  simp only [scaled, habsorb, hfraction, hexponent, Option.getD_none, absorb]
  simp

theorem roundToDouble_le {n : Nat} (h : n < Nat.pow 2 64) : roundToDouble n ≤ Nat.pow 2 65 := by
  have hlog : n.log2 < 64 := by
    by_cases hn : n = 0
    · rw [hn]
      decide
    · exact (Nat.log2_lt hn).mpr h
  have hunit : Nat.pow 2 (n.log2 - 52) ≤ Nat.pow 2 11 :=
    Nat.pow_le_pow_right (by decide) (by omega)
  have hdiv : n / Nat.pow 2 (n.log2 - 52) * Nat.pow 2 (n.log2 - 52) ≤ n := Nat.div_mul_le_self _ _
  have hbound : Nat.pow 2 64 + Nat.pow 2 11 ≤ Nat.pow 2 65 := by decide
  simp only [roundToDouble]
  split
  · rw [Nat.succ_mul]
    omega
  · omega

theorem inRange_ofNat {n : Nat} (h : n < Nat.pow 2 64) : (ofNat n).inRange = true := by
  rw [inRange, scaled_ofNat h]
  cases n with
  | zero => rfl
  | succ n =>
      have hone : roundToDouble (Nat.pow 10 0) = 1 := by decide
      have hround := roundToDouble_le h
      have hgreatest : Nat.pow 2 65 < Nat.pow 2 1024 - Nat.pow 2 970 := by decide +kernel
      have hproduct : roundToDouble (n + 1) * roundToDouble (Nat.pow 10 0) <
          Nat.pow 2 1024 - Nat.pow 2 970 := by
        rw [hone, Nat.mul_one]
        exact Nat.lt_of_le_of_lt hround hgreatest
      exact Bool.and_eq_true_iff.mpr ⟨rfl, decide_eq_true hproduct⟩

end Numeral

end Json

end ClauseInduction
