import ClauseInduction.Json.Numeral
import ClauseInduction.Json.Quoted

/-!
# JSON values

Values, and their two written forms: compact, without any blank, and pretty, with one item to a
line and two blanks of indentation for each level.  Objects keep their members in order.
-/

namespace ClauseInduction

inductive Json where
  | null
  | bool (value : Bool)
  | number (value : Json.Numeral)
  | string (value : String)
  | array (items : List Json)
  | object (members : List (String × Json))

namespace Json

instance : Inhabited Json := ⟨null⟩

def ofNat (n : Nat) : Json :=
  number (.ofNat n)

/-! ## The compact form -/

mutual

def compactChars : Json → List Char
  | null => "null".toList
  | bool true => "true".toList
  | bool false => "false".toList
  | number n => n.chars
  | string s => Quoted.quote s
  | array items => '[' :: compactItems items
  | object members => '\x7b' :: compactMembers members

def compactItems : List Json → List Char
  | [] => [']']
  | [v] => compactChars v ++ [']']
  | v :: vs => compactChars v ++ ',' :: compactItems vs

def compactMembers : List (String × Json) → List Char
  | [] => ['\x7d']
  | [(key, v)] => Quoted.quote key ++ ':' :: compactChars v ++ ['\x7d']
  | (key, v) :: members =>
      Quoted.quote key ++ ':' :: compactChars v ++ ',' :: compactMembers members

end

def compact (v : Json) : String :=
  String.ofList v.compactChars

/-! ## The pretty form -/

def newline (level : Nat) : List Char :=
  '\n' :: List.replicate (2 * level) ' '

mutual

def prettyChars (level : Nat) : Json → List Char
  | null => "null".toList
  | bool true => "true".toList
  | bool false => "false".toList
  | number n => n.chars
  | string s => Quoted.quote s
  | array [] => ['[', ']']
  | array (v :: vs) => '[' :: prettyItems level (v :: vs)
  | object [] => ['\x7b', '\x7d']
  | object (m :: members) => '\x7b' :: prettyMembers level (m :: members)

def prettyItems (level : Nat) : List Json → List Char
  | [] => newline level ++ [']']
  | [v] => newline (level + 1) ++ prettyChars (level + 1) v ++ newline level ++ [']']
  | v :: vs => newline (level + 1) ++ prettyChars (level + 1) v ++ ',' :: prettyItems level vs

def prettyMembers (level : Nat) : List (String × Json) → List Char
  | [] => newline level ++ ['\x7d']
  | [(key, v)] =>
      newline (level + 1) ++ Quoted.quote key ++ ':' :: ' ' :: prettyChars (level + 1) v ++
        newline level ++ ['\x7d']
  | (key, v) :: members =>
      newline (level + 1) ++ Quoted.quote key ++ ':' :: ' ' :: prettyChars (level + 1) v ++
        ',' :: prettyMembers level members

end

def pretty (v : Json) : String :=
  String.ofList (v.prettyChars 0)

end Json

end ClauseInduction
