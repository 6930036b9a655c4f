import ClauseInduction.Json.Fault

/-!
# Quoted text

Between quotation marks a quotation mark, a backslash and the characters below the space are
written as escapes, everything else as it is.  Reading accepts all escapes of JSON; an escaped
half of a surrogate pair that stands alone is no character, so the whole text has no value, but
it can be passed over.

## Main definitions

- `Quoted.escape`, the written form of a character
- `Quoted.Piece`, `Quoted.next?`, the next thing that a text spells out
- `Quoted.scan?`, all characters up to the closing quotation mark
-/

namespace ClauseInduction

namespace Json

namespace Quoted

/-! ## Writing -/

def hexDigit (n : Nat) : Char :=
  if n < 10 then Char.ofNat (n + '0'.toNat) else Char.ofNat (n - 10 + 'a'.toNat)

def shortEscapes : List (Char × Char) :=
  [('"', '"'), ('\\', '\\'), ('\x08', 'b'), ('\x0c', 'f'), ('\n', 'n'), ('\r', 'r'), ('\t', 't')]

def escape (c : Char) : List Char :=
  match shortEscapes.lookup c with
  | some e => ['\\', e]
  | none =>
      if c.toNat < 0x20 then
        ['\\', 'u', '0', '0', hexDigit (c.toNat / 16), hexDigit (c.toNat % 16)]
      else [c]

def quote (s : String) : List Char :=
  '"' :: s.toList.flatMap escape ++ ['"']

/-! ## Reading -/

def hexValue? (c : Char) : Option Nat :=
  if c.isDigit then some (c.toNat - '0'.toNat)
  else if 'a' ≤ c ∧ c ≤ 'f' then some (c.toNat - 'a'.toNat + 10)
  else if 'A' ≤ c ∧ c ≤ 'F' then some (c.toNat - 'A'.toNat + 10)
  else none

def byteCount (cs : List Char) : Nat :=
  cs.foldl (fun n c => n + c.utf8Size) 0

/-- The value of four hexadecimal digits.  What is missing is judged by bytes: with four bytes
left the digits are wrong, with fewer the text has ended. -/
def hex4? : List Char → Except Fault (Nat × List Char)
  | a :: b :: c :: d :: rest =>
      match hexValue? a, hexValue? b, hexValue? c, hexValue? d with
      | some i, some j, some k, some l => .ok (16 * (16 * (16 * i + j) + k) + l, rest)
      | _, _, _, _ => .error .malformed
  | cs => .error (if 4 ≤ byteCount cs then .malformed else .incomplete)

/-- The character that an escape of one letter stands for; a slash may be escaped, too. -/
def unescape? (e : Char) : Option Char :=
  if e = '/' then some '/' else (shortEscapes.find? fun p => p.2 = e).map Prod.fst

inductive Piece where
  | close
  | char (c : Char)
  | unpaired
deriving DecidableEq

def IsLead (n : Nat) : Prop :=
  0xD800 ≤ n ∧ n < 0xDC00

instance (n : Nat) : Decidable (IsLead n) :=
  inferInstanceAs (Decidable (_ ∧ _))

def IsTrail (n : Nat) : Prop :=
  0xDC00 ≤ n ∧ n < 0xE000

instance (n : Nat) : Decidable (IsTrail n) :=
  inferInstanceAs (Decidable (_ ∧ _))

def pairedChar (lead trail : Nat) : Char :=
  Char.ofNat (0x10000 + (lead - 0xD800) * 0x400 + (trail - 0xDC00))

/-- What follows the first half of a surrogate pair.  If it is not an escaped second half, the
first half stands alone and what follows is still to be read. -/
def afterLead? (lead : Nat) (cs : List Char) : Except Fault (Piece × List Char) :=
  match cs with
  | [] => .error .incomplete
  | ['\\'] => .error .incomplete
  | '\\' :: 'u' :: rest =>
      match hex4? rest with
      | .error f => .error f
      | .ok (n, rest) =>
          if IsTrail n then .ok (.char (pairedChar lead n), rest) else .ok (.unpaired, cs)
  | _ => .ok (.unpaired, cs)

def afterBackslash? : List Char → Except Fault (Piece × List Char)
  | [] => .error .incomplete
  | e :: cs =>
      if e = 'u' then
        match hex4? cs with
        | .error f => .error f
        | .ok (n, rest) =>
            if IsLead n then afterLead? n rest
            else if IsTrail n then .ok (.unpaired, rest)
            else .ok (.char (Char.ofNat n), rest)
      else
        match unescape? e with
        | some c => .ok (.char c, cs)
        | none => .error .malformed

def next? : List Char → Except Fault (Piece × List Char)
  | [] => .error .incomplete
  | c :: cs =>
      if c = '"' then .ok (.close, cs)
      else if c = '\\' then afterBackslash? cs
      else if c.toNat < 0x20 then .error .malformed
      else .ok (.char c, cs)

/-- The characters up to the closing quotation mark, if all are characters, and the rest of the
text, within a number of pieces.  Who looks at the value stops at the first half of a pair that
stands alone, whatever comes later. -/
def scanWithin? : Nat → List Char → Except Fault (Option (List Char) × List Char)
  | 0, _ => .error .incomplete
  | n + 1, cs =>
      match next? cs with
      | .error f => .error f
      | .ok (.close, rest) => .ok (some [], rest)
      | .ok (.char c, rest) =>
          match scanWithin? n rest with
          | .error f => .error f
          | .ok (value, rest) => .ok (value.map (c :: ·), rest)
      | .ok (.unpaired, rest) =>
          match scanWithin? n rest with
          | .error f => .error { f with read := .malformed }
          | .ok (_, rest) => .ok (none, rest)

/-- The text up to the closing quotation mark, if it has a value, and the rest of the text.
Every piece takes a character at least. -/
def scan? (cs : List Char) : Except Fault (Option String × List Char) :=
  (scanWithin? (cs.length + 1) cs).map fun (value, rest) => (value.map String.ofList, rest)

/-! ## Reading what is written -/

theorem hexValue?_hexDigit {n : Nat} (h : n < 16) : hexValue? (hexDigit n) = some n := by
  have all : ∀ m < 16, hexValue? (hexDigit m) = some m := by decide
  exact all n h

theorem unescape?_of_lookup {c e : Char} (h : shortEscapes.lookup c = some e) :
    e ≠ 'u' ∧ unescape? e = some c := by
  have hm : (c, e) ∈ shortEscapes := by
    obtain ⟨before, after, hl, _⟩ := List.lookup_eq_some_iff.1 h
    rw [hl]
    simp
  have all : ∀ p ∈ shortEscapes, p.2 ≠ 'u' ∧ unescape? p.2 = some p.1 := by decide
  exact all (c, e) hm

theorem next?_escape (c : Char) (rest : List Char) :
    next? (escape c ++ rest) = .ok (.char c, rest) := by
  unfold escape
  split
  · rename_i e he
    obtain ⟨hu, hc⟩ := unescape?_of_lookup he
    simp [next?, afterBackslash?, hu, hc]
  · rename_i hn
    split
    · rename_i hlt
      have hc : c.toNat / 16 < 16 ∧ c.toNat % 16 < 16 := by omega
      have h0 : hexValue? '0' = some 0 := rfl
      have hv : 16 * (c.toNat / 16) + c.toNat % 16 = c.toNat := Nat.div_add_mod _ _
      have hl : ¬ IsLead c.toNat := fun h => absurd h.1 (by omega)
      have ht : ¬ IsTrail c.toNat := fun h => absurd h.1 (by omega)
      simp [next?, afterBackslash?, hex4?, h0, hexValue?_hexDigit hc.1,
        hexValue?_hexDigit hc.2, hv, hl, ht]
    · rename_i hge
      have hall := List.lookup_eq_none_iff.1 hn
      have hq : c ≠ '"' := bne_iff_ne.1 (hall ('"', '"') (by decide))
      have hb : c ≠ '\\' := bne_iff_ne.1 (hall ('\\', '\\') (by decide))
      simp [next?, hq, hb, hge]

theorem scanWithin?_escape (cs rest : List Char) {n : Nat} (h : cs.length < n) :
    scanWithin? n (cs.flatMap escape ++ '"' :: rest) = .ok (some cs, rest) := by
  induction cs generalizing n with
  | nil =>
      cases n with
      | zero => exact absurd h (Nat.lt_irrefl 0)
      | succ n => simp [scanWithin?, next?]
  | cons c cs ih =>
      cases n with
      | zero => exact absurd h (Nat.not_lt_zero _)
      | succ n =>
          have hc := next?_escape c (cs.flatMap escape ++ '"' :: rest)
          have hcs := ih (n := n) (by simpa using h)
          simp [scanWithin?, List.append_assoc, hc, hcs]

theorem length_escape_pos (c : Char) : 0 < (escape c).length := by
  unfold escape
  split
  · simp
  · split <;> simp

theorem length_le_length_flatMap_escape (cs : List Char) :
    cs.length ≤ (cs.flatMap escape).length := by
  induction cs with
  | nil => exact Nat.le_refl 0
  | cons c cs ih =>
      have hc := length_escape_pos c
      simp only [List.flatMap_cons, List.length_append, List.length_cons]
      omega

theorem scan?_quote (s : String) (rest : List Char) :
    scan? ((quote s).tail ++ rest) = .ok (some s, rest) := by
  have hlen := length_le_length_flatMap_escape s.toList
  have e : (quote s).tail ++ rest = s.toList.flatMap escape ++ '"' :: rest := by
    simp [quote]
  have h := scanWithin?_escape s.toList rest
    (n := (s.toList.flatMap escape ++ '"' :: rest).length + 1)
    (by simp only [List.length_append]; omega)
  rw [scan?, e, h]
  simp [Except.map]

end Quoted

end Json

end ClauseInduction
