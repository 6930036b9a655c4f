import ClauseInduction.Json.Fault

/-!
# Numerals

A numeral is kept as it is written: sign, whole digits, fraction and exponent.  Where its value
is asked for, it is read as a double, and a numeral whose double would be infinite is refused.

## Main definitions

- `Numeral`, `Numeral.ofNat`, `Numeral.toNat?`
- `Numeral.scan?`, the numeral at the start of a text
- `Numeral.inRange`, whether its value is a finite double
-/

namespace ClauseInduction

namespace Json

/-- A number as it is written.  The exponent is a sign, true for a negative one, and digits. -/
structure Numeral where
  negative : Bool
  whole : List Char
  fraction : Option (List Char)
  exponent : Option (Bool × List Char)
deriving DecidableEq

namespace Numeral

def digitValue (c : Char) : Nat :=
  c.toNat - '0'.toNat

def digitsValue (cs : List Char) : Nat :=
  Nat.ofDigitChars 10 cs 0

def ofNat (n : Nat) : Numeral :=
  ⟨false, (toString n).toList, none, none⟩

def toNat? (n : Numeral) : Option Nat :=
  match n with
  | ⟨false, whole, none, none⟩ => some (digitsValue whole)
  | _ => none

@[simp]
theorem toNat?_ofNat (n : Nat) : (ofNat n).toNat? = some n := by
  have h : digitsValue (toString n).toList = n := by
    rw [digitsValue, Nat.toString_eq_ofList_toDigits, String.toList_ofList]
    exact Nat.ofDigitChars_ten_toDigits
  exact congrArg some h

def chars (n : Numeral) : List Char :=
  (if n.negative then ['-'] else []) ++ n.whole ++
    (match n.fraction with
    | some ds => '.' :: ds
    | none => []) ++
    (match n.exponent with
    | some (negative, ds) => 'e' :: (if negative then ['-'] else []) ++ ds
    | none => [])

/-! ## Scanning -/

/-- What is wrong where a digit is missing.  At the end of the text a value that is looked at
is incomplete, while passing over it finds it malformed. -/
def missingDigit : List Char → Fault
  | [] => ⟨.incomplete, .malformed⟩
  | _ :: _ => .malformed

def digits? (cs : List Char) : Except Fault (List Char × List Char) :=
  match cs.takeWhile Char.isDigit with
  | [] => .error (missingDigit cs)
  | ds => .ok (ds, cs.dropWhile Char.isDigit)

/-- The digits of the whole part: a zero stands alone. -/
def whole? (cs : List Char) : Except Fault (List Char × List Char) :=
  match digits? cs with
  | .ok ('0' :: _ :: _, _) => .error .malformed
  | result => result

def fraction? : List Char → Except Fault (Option (List Char) × List Char)
  | '.' :: cs => (digits? cs).map fun (ds, rest) => (some ds, rest)
  | cs => .ok (none, cs)

def exponentSign : List Char → Bool × List Char
  | '-' :: cs => (true, cs)
  | '+' :: cs => (false, cs)
  | cs => (false, cs)

def exponent? : List Char → Except Fault (Option (Bool × List Char) × List Char)
  | [] => .ok (none, [])
  | c :: cs =>
      if c = 'e' ∨ c = 'E' then
        (digits? (exponentSign cs).2).map fun (ds, rest) =>
          (some ((exponentSign cs).1, ds), rest)
      else .ok (none, c :: cs)

def sign : List Char → Bool × List Char
  | '-' :: cs => (true, cs)
  | cs => (false, cs)

def scan? (cs : List Char) : Except Fault (Numeral × List Char) := do
  let (negative, cs) := sign cs
  let (whole, cs) ← whole? cs
  let (fraction, cs) ← fraction? cs
  let (exponent, cs) ← exponent? cs
  return (⟨negative, whole, fraction, exponent⟩, cs)

/-! ## Range -/

/-- Appends digits to a significand while it stays below `2 ^ 64`; also the number of digits
appended. -/
def absorb : Nat → List Char → Nat × Nat
  | s, [] => (s, 0)
  | s, c :: cs =>
      if 10 * s + digitValue c < Nat.pow 2 64 then
        let (r, n) := absorb (10 * s + digitValue c) cs
        (r, n + 1)
      else (s, 0)

/-- The integer that a numeral is read as, and the power of ten that it is scaled by: the
leading digits as far as they fit into 64 bits.  Digits that do not fit count towards the power
before the point and not at all behind it. -/
def scaled (n : Numeral) : Nat × Int :=
  let (s, used) := absorb 0 n.whole
  let (r, behind) := absorb s (n.fraction.getD [])
  let shift : Int :=
    match n.exponent with
    | some (true, ds) => -(digitsValue ds : Int)
    | some (false, ds) => digitsValue ds
    | none => 0
  (r, (n.whole.length - used : Nat) - (behind : Int) + shift)

/-- The nearest natural number with 53 significant bits, the even one of two. -/
def roundToDouble (n : Nat) : Nat :=
  let unit := Nat.pow 2 (n.log2 - 52)
  let q := n / unit
  let r := n % unit
  if unit < 2 * r ∨ (2 * r = unit ∧ q % 2 = 1) then (q + 1) * unit else q * unit

/-- The value is a finite double.  The integer and the power of ten are rounded to doubles
first; powers above `10 ^ 308` have no double.  From halfway between the greatest double and
`2 ^ 1024` upwards a product is infinite. -/
def inRange (n : Numeral) : Bool :=
  match n.scaled with
  | (0, _) => true
  | (_, .negSucc _) => true
  | (s, .ofNat e) =>
      e ≤ 308 &&
        roundToDouble s * roundToDouble (Nat.pow 10 e) < Nat.pow 2 1024 - Nat.pow 2 970

end Numeral

end Json

end ClauseInduction
