import ClauseInduction.Json.Reader
import ClauseInduction.Term.Basic

/-!
# Reading terms

The document of a term says by a tag what the term is.  Since the tag may come last, all of the
document is looked at before it is taken apart.  Inside of a function the tag may also be a
number.

## Main definitions

- `Term.ofJson?`, the term that a value stands for
- `Term.reader`, reading a term that is not inside of another one
-/

namespace ClauseInduction

open Json (Reader Rejection Scanned)

/-! ## Kinds of terms -/

inductive Term.Kind where
  | var
  | const
  | app
deriving DecidableEq

namespace Term

def Kind.ofName? (s : String) : Option Kind :=
  if s = "Variable" then some .var
  else if s = "Constant" then some .const
  else if s = "Function" then some .app
  else none

def Kind.ofNumber? : Nat → Option Kind
  | 0 => some .var
  | 1 => some .const
  | 2 => some .app
  | _ => none

def Kind.ofTag? : Json → Option Kind
  | .string s => ofName? s
  | .number n => n.toNat?.bind ofNumber?
  | _ => none

def membersNamed (key : String) (members : List (String × Json)) : List Json :=
  (members.filter fun m => m.1 = key).map Prod.snd

/-- The term of a kind with a name.  The readings of its arguments count for a function alone,
which needs exactly one. -/
def ofParts? (kind : Kind) (name : String) (args : List (Option (List Term))) : Option Term :=
  match kind with
  | .var => some (.var name)
  | .const => some (.const name)
  | .app =>
      match args with
      | [some ts] => some (.app ⟨name, ts.length⟩ ts)
      | _ => none

def ofMembers? (members : List (String × Json)) (args : List (Option (List Term))) :
    Option Term :=
  match membersNamed "type" members, membersNamed "name" members with
  | [tag], [.string name] => (Kind.ofTag? tag).bind fun kind => ofParts? kind name args
  | _, _ => none

mutual

def ofJson? : Json → Option Term
  | .object members => ofMembers? members (argumentsIn members)
  | .array [tag, .string name] =>
      match Kind.ofTag? tag with
      | some .var => some (.var name)
      | some .const => some (.const name)
      | _ => none
  | .array [tag, .string name, args] =>
      match Kind.ofTag? tag with
      | some .app => ofParts? .app name [listOfJson? args]
      | _ => none
  | _ => none

def listOfJson? : Json → Option (List Term)
  | .array items => ofItems? items
  | _ => none

def ofItems? : List Json → Option (List Term)
  | [] => some []
  | v :: vs =>
      match ofJson? v, ofItems? vs with
      | some t, some ts => some (t :: ts)
      | _, _ => none

def argumentsIn : List (String × Json) → List (Option (List Term))
  | [] => []
  | (key, v) :: members =>
      if key = "args" then listOfJson? v :: argumentsIn members else argumentsIn members

end

def readTag : Scanned → Except Rejection Json
  | .string (some s) =>
      match Kind.ofName? s with
      | some _ => .ok (.string s)
      | none => .error .unfit
  | v => .error v.mismatch

/-- Looks at the members of a term.  The tag must come once only. -/
def readMembers (room : Nat) :
    Bool → List (Option String × Scanned) → Except Rejection (List (String × Json))
  | _, [] => .ok []
  | tagged, (key, v) :: members => do
      let key ← Scanned.text key
      if key = "type" then
        if tagged then .error .unfit
        else do
          let tag ← readTag v
          let ms ← readMembers room true members
          return (key, tag) :: ms
      else do
        let j ← v.value room
        let ms ← readMembers room tagged members
        return (key, j) :: ms

def reader : Reader Term
  | 0, .object _ _ => .error .malformed
  | 0, .array _ _ => .error .malformed
  | room + 1, .object members stop => do
      let ms ← readMembers room false members
      let ms ← Scanned.closed stop ms
      Reader.finish (ofJson? (.object ms))
  | _ + 1, .array [] stop => do
      Scanned.closed stop ()
      .error .unfit
  | room + 1, .array (tag :: items) stop => do
      let tag ← readTag tag
      let vs ← Scanned.valueItems room items
      let vs ← Scanned.closed stop vs
      Reader.finish (ofJson? (.array (tag :: vs)))
  | _, v => .error v.mismatch

end Term

end ClauseInduction
