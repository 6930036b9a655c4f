import ClauseInduction.Json.Scan

/-!
# Readers

A reader turns a scanned tree into a value of a chosen form.  It looks at the tree from left to
right, so the first thing that is wrong decides, and it is told how many levels of arrays and
objects there may still be.

A record is written as an object with named members, or as an array of its fields in order.
Members of an object that are no field are passed over.

## Main definitions

- `Reader`, with `Reader.bool`, `Reader.string`, `Reader.list`
- `Field` and `Reader.record`
- `Reader.run`, reading a text
-/

namespace ClauseInduction

namespace Json

abbrev Reader (α : Type) := Nat → Scanned → Except Rejection α

def maxDepth : Nat :=
  127

/-- Why a tree is not of an expected form.  A string or a number is looked at first and may be
malformed itself; arrays and objects are not entered. -/
def Scanned.mismatch : Scanned → Rejection
  | fault f => f.read
  | number n => if n.inRange then .unfit else .malformed
  | string none => .malformed
  | _ => .unfit

namespace Reader

/-! ## Plain values -/

def bool : Reader Bool
  | _, .bool b => .ok b
  | _, v => .error v.mismatch

def string : Reader String
  | _, .string (some s) => .ok s
  | _, v => .error v.mismatch

def items (read : Reader α) (room : Nat) : List Scanned → Except Rejection (List α)
  | [] => .ok []
  | v :: vs => do
      let a ← read room v
      let as ← items read room vs
      return a :: as

def list (read : Reader α) : Reader (List α)
  | 0, .array _ _ => .error .malformed
  | room + 1, .array vs stop => do
      let as ← items read room vs
      Scanned.closed stop as
  | _, v => .error v.mismatch

end Reader

/-! ## Records -/

/-- A field of a record that is read into a draft: its name, whether the draft has it already,
and how its value gets there. -/
structure Field (δ : Type) where
  name : String
  given : δ → Bool
  read : δ → Reader δ

namespace Field

def ofPlace (name : String) (get : δ → Option α) (set : δ → α → δ) (read : Reader α) :
    Field δ where
  name := name
  given := fun d => (get d).isSome
  read := fun d room v => (read room v).map (set d)

def only (name : String) (read : Reader α) : Field (Option α) :=
  ofPlace name id (fun _ a => some a) read

def first (name : String) (read : Reader α) : Field (Option α × Option β) :=
  ofPlace name Prod.fst (fun d a => (some a, d.2)) read

def second (name : String) (read : Reader β) : Field (Option α × Option β) :=
  ofPlace name Prod.snd (fun d b => (d.1, some b)) read

end Field

namespace Reader

/-- Reads the members of an object into a draft.  A field that comes twice is not read again. -/
def members (fields : List (Field δ)) (room : Nat) :
    List (Option String × Scanned) → δ → Except Rejection δ
  | [], d => .ok d
  | (none, _) :: _, _ => .error .malformed
  | (some key, v) :: ms, d =>
      match fields.find? fun f => f.name = key with
      | some f =>
          if f.given d then .error .unfit
          else do
            let d ← f.read d room v
            members fields room ms d
      | none =>
          match v.passOver with
          | some r => .error r
          | none => members fields room ms d

/-- Reads the items of an array into a draft, one for each field in order.  Fields may be
missing at the end; an item more is one too many. -/
def places (stop : Option Fault) (room : Nat) :
    List (Field δ) → List Scanned → δ → Except Rejection δ
  | [], [], d => Scanned.closed stop d
  | [], _ :: _, _ => .error .malformed
  | _ :: _, [], d => Scanned.closed stop d
  | f :: fields, v :: vs, d => do
      let d ← f.read d room v
      places stop room fields vs d

def finish (a : Option α) : Except Rejection α :=
  match a with
  | some a => .ok a
  | none => .error .unfit

def record (fields : List (Field δ)) (start : δ) (complete : δ → Option α) : Reader α
  | 0, .object _ _ => .error .malformed
  | 0, .array _ _ => .error .malformed
  | room + 1, .object ms stop => do
      let d ← members fields room ms start
      let d ← Scanned.closed stop d
      finish (complete d)
  | room + 1, .array vs stop => do
      let d ← places stop room fields vs start
      finish (complete d)
  | _, v => .error v.mismatch

/-! ## Texts -/

def run (read : Reader α) (s : String) : Except Rejection α :=
  let (v, rest) := Scanned.scan s.toList
  match read maxDepth v with
  | .error r => .error r
  | .ok a =>
      match rest with
      | some cs => if Scanned.skipBlanks cs = [] then .ok a else .error .malformed
      | none => .error .incomplete

end Reader

end Json

end ClauseInduction
