import ClauseInduction.Json.Basic

/-!
# Scanning JSON

Scanning turns a text into the tree of what it spells out up to its first fault.  Faults stay in
the tree at their place: whether one counts, and as which rejection, is known only when the tree
is looked at from left to right, because parts of it may be passed over and a value of the wrong
form may be rejected first.

## Main definitions

- `Scanned`, trees with faults
- `Scanned.scan`, the tree of a text, and what follows it
- `Scanned.passOver`, `Scanned.value`: what a tree is when it is passed over, and when all of it
  is looked at
-/

namespace ClauseInduction

namespace Json

/-- What a text spells out up to its first fault.  A string without value holds half of a
surrogate pair that stands alone.  An array or object that does not close says why in `stop`,
unless the fault lies inside of its last part. -/
inductive Scanned where
  | fault (f : Fault)
  | null
  | bool (value : Bool)
  | number (value : Numeral)
  | string (value : Option String)
  | array (items : List Scanned) (stop : Option Fault)
  | object (members : List (Option String × Scanned)) (stop : Option Fault)

namespace Scanned

instance : Inhabited Scanned := ⟨null⟩

/-! ## From text to trees -/

def isBlank (c : Char) : Bool :=
  c = ' ' || c = '\t' || c = '\n' || c = '\r'

def skipBlanks (cs : List Char) : List Char :=
  cs.dropWhile isBlank

def keyword? : List Char → List Char → Except Fault (List Char)
  | [], cs => .ok cs
  | _ :: _, [] => .error .incomplete
  | k :: ks, c :: cs => if k = c then keyword? ks cs else .error .malformed

def leaf (make : α → Scanned) : Except Fault (α × List Char) → Scanned × Option (List Char)
  | .ok (a, rest) => (make a, some rest)
  | .error f => (fault f, none)

def word (value : Scanned) (spelling : String) (cs : List Char) : Scanned × Option (List Char) :=
  leaf (fun _ => value) ((keyword? spelling.toList cs).map fun rest => ((), rest))

mutual

def scanWithin : Nat → List Char → Scanned × Option (List Char)
  | 0, _ => (fault .incomplete, none)
  | n + 1, cs =>
      match skipBlanks cs with
      | [] => (fault .incomplete, none)
      | c :: rest =>
          if c = '"' then leaf string (Quoted.scan? rest)
          else if c = '[' then
            match skipBlanks rest with
            | [] => (array [] (some .incomplete), none)
            | ']' :: rest => (array [] none, some rest)
            | cs =>
                let (items, stop, rest) := scanItems n cs
                (array items stop, rest)
          else if c = '\x7b' then
            match skipBlanks rest with
            | [] => (object [] (some .incomplete), none)
            | '\x7d' :: rest => (object [] none, some rest)
            | cs =>
                let (members, stop, rest) := scanMembers n cs
                (object members stop, rest)
          else if c = 'n' then word null "null" (c :: rest)
          else if c = 't' then word (bool true) "true" (c :: rest)
          else if c = 'f' then word (bool false) "false" (c :: rest)
          else if c = '-' ∨ c.isDigit then leaf number (Numeral.scan? (c :: rest))
          else (fault .malformed, none)

/-- The items of an array from one item on; why it does not close, if it does not; and the rest
of the text if it does. -/
def scanItems : Nat → List Char → List Scanned × Option Fault × Option (List Char)
  | 0, _ => ([], some .incomplete, none)
  | n + 1, cs =>
      match scanWithin n cs with
      | (v, none) => ([v], none, none)
      | (v, some rest) =>
          match skipBlanks rest with
          | [] => ([v], some .incomplete, none)
          | c :: rest =>
              if c = ',' then
                let (vs, stop, rest) := scanItems n rest
                (v :: vs, stop, rest)
              else if c = ']' then ([v], none, some rest)
              else ([v], some .malformed, none)

def scanMembers :
    Nat → List Char → List (Option String × Scanned) × Option Fault × Option (List Char)
  | 0, _ => ([], some .incomplete, none)
  | n + 1, cs =>
      match skipBlanks cs with
      | [] => ([], some .incomplete, none)
      | c :: rest =>
          if c = '"' then
            match Quoted.scan? rest with
            | .error f => ([], some f, none)
            | .ok (key, rest) =>
                match skipBlanks rest with
                | [] => ([(key, fault .incomplete)], none, none)
                | c :: rest =>
                    if c = ':' then
                      match scanWithin n rest with
                      | (v, none) => ([(key, v)], none, none)
                      | (v, some rest) =>
                          match skipBlanks rest with
                          | [] => ([(key, v)], some .incomplete, none)
                          | c :: rest =>
                              if c = ',' then
                                let (members, stop, rest) := scanMembers n rest
                                ((key, v) :: members, stop, rest)
                              else if c = '\x7d' then ([(key, v)], none, some rest)
                              else ([(key, v)], some .malformed, none)
                    else ([(key, fault .malformed)], none, none)
          else ([], some .malformed, none)

end

/-- The tree of a text, and what follows it if it is complete.  No more than two steps are taken
for one character. -/
def scan (cs : List Char) : Scanned × Option (List Char) :=
  scanWithin (2 * cs.length + 2) cs

/-! ## Passing over -/

mutual

def passOver : Scanned → Option Rejection
  | fault f => some f.skipped
  | array items stop => passOverItems items stop
  | object members stop => passOverMembers members stop
  | _ => none

def passOverItems : List Scanned → Option Fault → Option Rejection
  | [], stop => stop.map Fault.skipped
  | v :: vs, stop =>
      match passOver v with
      | some r => some r
      | none => passOverItems vs stop

def passOverMembers : List (Option String × Scanned) → Option Fault → Option Rejection
  | [], stop => stop.map Fault.skipped
  | (_, v) :: members, stop =>
      match passOver v with
      | some r => some r
      | none => passOverMembers members stop

end

/-! ## Looking at the whole tree -/

def numeral (n : Numeral) : Except Rejection Numeral :=
  if n.inRange then .ok n else .error .malformed

def text : Option String → Except Rejection String
  | some s => .ok s
  | none => .error .malformed

def closed (stop : Option Fault) (a : α) : Except Rejection α :=
  match stop with
  | some f => .error f.read
  | none => .ok a

mutual

def value : Nat → Scanned → Except Rejection Json
  | _, fault f => .error f.read
  | _, null => .ok .null
  | _, bool b => .ok (.bool b)
  | _, number n => (numeral n).map .number
  | _, string s => (text s).map .string
  | 0, array _ _ => .error .malformed
  | room + 1, array items stop => do
      let vs ← valueItems room items
      closed stop (.array vs)
  | 0, object _ _ => .error .malformed
  | room + 1, object members stop => do
      let ms ← valueMembers room members
      closed stop (.object ms)

def valueItems : Nat → List Scanned → Except Rejection (List Json)
  | _, [] => .ok []
  | room, v :: vs => do
      let j ← value room v
      let js ← valueItems room vs
      return j :: js

def valueMembers : Nat → List (Option String × Scanned) → Except Rejection (List (String × Json))
  | _, [] => .ok []
  | room, (key, v) :: members => do
      let key ← text key
      let j ← value room v
      let ms ← valueMembers room members
      return (key, j) :: ms

end

end Scanned

end Json

end ClauseInduction
