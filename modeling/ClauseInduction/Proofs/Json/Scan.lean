import ClauseInduction.Json.Scan
import ClauseInduction.Proofs.Json.Numeral

/-!
# Scanning what is written

The text of a value is scanned into the tree of that value, in the compact form as in the pretty
one.  The two forms differ in blanks, and the scan skips these: what it makes of items and members
is said once for texts with blanks in all places where one of the forms has some.
-/

namespace ClauseInduction

namespace Json

/-!
# Trees of values
-/

mutual

def tree : Json → Scanned
  | null => .null
  | bool b => .bool b
  | number n => .number n
  | string s => .string (some s)
  | array items => .array (treeItems items) none
  | object members => .object (treeMembers members) none

def treeItems : List Json → List Scanned
  | [] => []
  | v :: vs => tree v :: treeItems vs

def treeMembers : List (String × Json) → List (Option String × Scanned)
  | [] => []
  | (key, v) :: members => (some key, tree v) :: treeMembers members

end

/-- All numbers in the value are counts of 64 bits. -/
inductive Plain : Json → Prop where
  | null : Plain .null
  | bool (b : Bool) : Plain (.bool b)
  | count {n : Nat} (h : n < Nat.pow 2 64) : Plain (.ofNat n)
  | string (s : String) : Plain (.string s)
  | array {items : List Json} (h : ∀ v ∈ items, Plain v) : Plain (.array items)
  | object {members : List (String × Json)} (h : ∀ m ∈ members, Plain m.2) :
      Plain (.object members)

namespace Scanned

/-!
# Blanks and words
-/

def Blank (cs : List Char) : Prop :=
  ∀ c ∈ cs, isBlank c = true

theorem blank_nil : Blank [] :=
  nofun

theorem blank_newline (level : Nat) : Blank (newline level) := by
  refine List.forall_mem_cons.mpr ⟨rfl, fun c hc => ?_⟩
  rw [List.eq_of_mem_replicate hc]
  rfl

theorem skipBlanks_cons {c : Char} (h : isBlank c = false) (cs : List Char) :
    skipBlanks (c :: cs) = c :: cs :=
  List.dropWhile_cons_of_neg (by rw [h]; exact Bool.false_ne_true)

theorem skipBlanks_append {gap : List Char} (h : Blank gap) (cs : List Char) :
    skipBlanks (gap ++ cs) = skipBlanks cs :=
  List.dropWhile_append_of_pos h

theorem scanWithin_append {gap : List Char} (h : Blank gap) (n : Nat) (cs : List Char) :
    scanWithin n (gap ++ cs) = scanWithin n cs := by
  cases n with
  | zero => rfl
  | succ n => rw [scanWithin, scanWithin, skipBlanks_append h]

theorem scanItems_append {gap : List Char} (h : Blank gap) (n : Nat) (cs : List Char) :
    scanItems n (gap ++ cs) = scanItems n cs := by
  cases n with
  | zero => rfl
  | succ n => rw [scanItems, scanItems, scanWithin_append h]

theorem scanMembers_append {gap : List Char} (h : Blank gap) (n : Nat) (cs : List Char) :
    scanMembers n (gap ++ cs) = scanMembers n cs := by
  cases n with
  | zero => rfl
  | succ n => rw [scanMembers, scanMembers, skipBlanks_append h]

theorem stops_append {gap : List Char} (h : Blank gap) {cs : List Char} (hcs : Numeral.Stops cs) :
    Numeral.Stops (gap ++ cs) := by
  cases gap with
  | nil => exact hcs
  | cons c gap =>
      have hc : isBlank c = true := h c List.mem_cons_self
      simp only [isBlank, Bool.or_eq_true, decide_eq_true_eq] at hc
      apply Numeral.stops_cons
      rcases hc with ((rfl | rfl) | rfl) | rfl <;> decide

theorem keyword?_append (ks rest : List Char) : keyword? ks (ks ++ rest) = .ok rest := by
  induction ks with
  | nil => rfl
  | cons k ks ih => rw [List.cons_append, keyword?, if_pos rfl, ih]

theorem word_append (v : Scanned) (spelling : String) (rest : List Char) :
    word v spelling (spelling.toList ++ rest) = (v, some rest) := by
  rw [word, keyword?_append]
  rfl

/-!
# Texts and their trees

Two steps for each character are enough, whatever follows.
-/

/-- The text is scanned into the tree, unless what follows continues its numeral. -/
structure Spells (cs : List Char) (s : Scanned) : Prop where
  starts : ∃ c cs', cs = c :: cs' ∧ isBlank c = false ∧ c ≠ ']'
  scans : ∀ n rest, Numeral.Stops rest → 2 * cs.length ≤ n →
    scanWithin n (cs ++ rest) = (s, some rest)

/-- The text goes from the first item of an array to its end. -/
structure SpellsItems (cs : List Char) (ss : List Scanned) : Prop where
  starts : ∃ c cs', cs = c :: cs' ∧ isBlank c = false ∧ c ≠ ']'
  scans : ∀ n rest, 2 * cs.length ≤ n → scanItems n (cs ++ rest) = (ss, none, some rest)

structure SpellsMembers (cs : List Char) (ms : List (Option String × Scanned)) : Prop where
  starts : ∃ cs', cs = '"' :: cs'
  scans : ∀ n rest, 2 * cs.length ≤ n → scanMembers n (cs ++ rest) = (ms, none, some rest)

theorem Spells.of_succ {cs : List Char} {s : Scanned}
    (hstarts : ∃ c cs', cs = c :: cs' ∧ isBlank c = false ∧ c ≠ ']')
    (hscans : ∀ n rest, Numeral.Stops rest → 2 * cs.length ≤ n + 1 →
      scanWithin (n + 1) (cs ++ rest) = (s, some rest)) : Spells cs s where
  starts := hstarts
  scans := by
    intro n rest hrest hn
    cases n with
    | zero =>
        rcases hstarts with ⟨c, cs', rfl, -⟩
        cases hn
    | succ n => exact hscans n rest hrest hn

theorem spells_null : Spells "null".toList .null :=
  .of_succ ⟨'n', _, rfl, rfl, by decide⟩ fun _ rest _ _ => word_append .null "null" rest

theorem spells_bool (b : Bool) : Spells (compactChars (.bool b)) (.bool b) := by
  cases b with
  | true =>
      exact .of_succ ⟨'t', _, rfl, rfl, by decide⟩ fun _ rest _ _ =>
        word_append (.bool true) "true" rest
  | false =>
      exact .of_succ ⟨'f', _, rfl, rfl, by decide⟩ fun _ rest _ _ =>
        word_append (.bool false) "false" rest

theorem spells_quote (s : String) : Spells (Quoted.quote s) (.string (some s)) := by
  refine .of_succ ⟨'"', _, rfl, rfl, by decide⟩ fun n rest _ _ => ?_
  have hscan := Quoted.scan?_quote s rest
  have hquote : Quoted.quote s = '"' :: (Quoted.quote s).tail := rfl
  rw [hquote, List.cons_append, scanWithin, skipBlanks_cons rfl]
  simp only [if_pos, hscan]
  rfl

theorem spells_count (n : Nat) : Spells (Numeral.ofNat n).chars (.number (.ofNat n)) := by
  rcases Numeral.exists_chars_ofNat_eq_cons n with ⟨d, ds, hchars, hdigit, -⟩
  have hother : ∀ c : Char, c.isDigit = false → d ≠ c := by
    intro c hc hdc
    rw [hdc, hc] at hdigit
    cases hdigit
  have hblank : isBlank d = false := by
    simp [isBlank, hother ' ' rfl, hother '\t' rfl, hother '\n' rfl, hother '\r' rfl]
  refine .of_succ ⟨d, ds, hchars, hblank, hother ']' rfl⟩ fun m rest hrest _ => ?_
  have hscan := Numeral.scan?_chars_ofNat n hrest
  rw [hchars, List.cons_append] at hscan ⊢
  rw [scanWithin, skipBlanks_cons hblank]
  simp [hother '"' rfl, hother '[' rfl, hother '\x7b' rfl, hother 'n' rfl, hother 't' rfl,
    hother 'f' rfl, hdigit, hscan, leaf]

/-!
# Arrays
-/

/-- After the last item comes the end, possibly behind blanks. -/
theorem Spells.lastItem {cs gap : List Char} {s : Scanned} (h : Spells cs s) (hgap : Blank gap) :
    SpellsItems (cs ++ (gap ++ [']'])) [s] where
  starts := by
    rcases h.starts with ⟨c, cs', rfl, hc⟩
    exact ⟨c, _, rfl, hc⟩
  scans := by
    intro n rest hn
    simp only [List.length_append, List.length_singleton] at hn
    cases n with
    | zero => omega
    | succ n =>
        have hstops : Numeral.Stops (gap ++ ']' :: rest) :=
          stops_append hgap (Numeral.stops_cons (by decide) rest)
        have hscan := h.scans n _ hstops (by omega)
        rw [List.append_assoc, List.append_assoc, List.singleton_append, scanItems, hscan]
        simp [skipBlanks_append hgap, skipBlanks_cons (show isBlank ']' = false from rfl)]

theorem Spells.consItem {cs gap cs' : List Char} {s : Scanned} {ss : List Scanned}
    (h : Spells cs s) (hgap : Blank gap) (hrest : SpellsItems cs' ss) :
    SpellsItems (cs ++ ',' :: (gap ++ cs')) (s :: ss) where
  starts := by
    rcases h.starts with ⟨c, cs', rfl, hc⟩
    exact ⟨c, _, rfl, hc⟩
  scans := by
    intro n rest hn
    simp only [List.length_append, List.length_cons] at hn
    cases n with
    | zero => omega
    | succ n =>
        have hscan := h.scans n (',' :: (gap ++ (cs' ++ rest)))
          (Numeral.stops_cons (by decide) _) (by omega)
        have hitems := hrest.scans n rest (by omega)
        rw [List.append_assoc, List.cons_append, List.append_assoc, scanItems, hscan]
        simp [skipBlanks_cons (show isBlank ',' = false from rfl), scanItems_append hgap, hitems]

theorem spells_array_nil : Spells ['[', ']'] (.array [] none) :=
  .of_succ ⟨'[', _, rfl, rfl, by decide⟩ fun _ _ _ _ => rfl

theorem SpellsItems.array {cs gap : List Char} {ss : List Scanned} (h : SpellsItems cs ss)
    (hgap : Blank gap) : Spells ('[' :: (gap ++ cs)) (.array ss none) := by
  refine .of_succ ⟨'[', _, rfl, rfl, by decide⟩ fun n rest _ hn => ?_
  simp only [List.length_cons, List.length_append] at hn
  have hitems := h.scans n rest (by omega)
  rcases h.starts with ⟨c, cs', rfl, hblank, hclose⟩
  rw [List.cons_append] at hitems
  rw [List.cons_append, List.append_assoc, List.cons_append, scanWithin, skipBlanks_cons rfl]
  simp [skipBlanks_append hgap, skipBlanks_cons hblank, hclose, hitems]

/-!
# Objects
-/

theorem Spells.scanMembers {cs space gap : List Char} {s : Scanned} (h : Spells cs s)
    (hspace : Blank space) (hgap : Blank gap) (key : String) {n : Nat} (hn : 2 * cs.length ≤ n)
    {c : Char} (hc : isBlank c = false) (rest : List Char) (hstops : Numeral.Stops (c :: rest)) :
    Scanned.scanMembers (n + 1)
        (Quoted.quote key ++ ':' :: (space ++ (cs ++ (gap ++ c :: rest)))) =
      if c = ',' then
        ((some key, s) :: (Scanned.scanMembers n rest).1, (Scanned.scanMembers n rest).2)
      else if c = '\x7d' then ([(some key, s)], none, some rest)
      else ([(some key, s)], some .malformed, none) := by
  have hquote : Quoted.quote key = '"' :: (Quoted.quote key).tail := rfl
  have hkey := Quoted.scan?_quote key (':' :: (space ++ (cs ++ (gap ++ c :: rest))))
  have hscan := h.scans n (gap ++ c :: rest) (stops_append hgap hstops) hn
  rw [hquote, List.cons_append, Scanned.scanMembers,
    skipBlanks_cons (show isBlank '"' = false from rfl)]
  simp only [if_pos, hkey, skipBlanks_cons (show isBlank ':' = false from rfl),
    scanWithin_append hspace, hscan, skipBlanks_append hgap, skipBlanks_cons hc]

theorem Spells.lastMember {cs space gap : List Char} {s : Scanned} (h : Spells cs s)
    (hspace : Blank space) (hgap : Blank gap) (key : String) :
    SpellsMembers (Quoted.quote key ++ ':' :: (space ++ (cs ++ (gap ++ ['\x7d']))))
      [(some key, s)] where
  starts := ⟨_, rfl⟩
  scans := by
    intro n rest hn
    simp only [List.length_append, List.length_cons] at hn
    cases n with
    | zero => omega
    | succ n =>
        have hscan := h.scanMembers hspace hgap key (n := n) (by omega)
          (show isBlank '\x7d' = false from rfl) rest (Numeral.stops_cons (by decide) rest)
        simpa using hscan

theorem Spells.consMember {cs space gap cs' : List Char} {s : Scanned}
    {ms : List (Option String × Scanned)} (h : Spells cs s) (hspace : Blank space)
    (hgap : Blank gap) (key : String) (hrest : SpellsMembers cs' ms) :
    SpellsMembers (Quoted.quote key ++ ':' :: (space ++ (cs ++ ',' :: (gap ++ cs'))))
      ((some key, s) :: ms) where
  starts := ⟨_, rfl⟩
  scans := by
    intro n rest hn
    simp only [List.length_append, List.length_cons] at hn
    cases n with
    | zero => omega
    | succ n =>
        have hscan := h.scanMembers hspace blank_nil key (n := n) (by omega)
          (show isBlank ',' = false from rfl) (gap ++ (cs' ++ rest))
          (Numeral.stops_cons (by decide) _)
        have hmembers := hrest.scans n rest (by omega)
        rw [if_pos rfl, scanMembers_append hgap, hmembers] at hscan
        simpa using hscan

theorem spells_object_nil : Spells ['\x7b', '\x7d'] (.object [] none) :=
  .of_succ ⟨'\x7b', _, rfl, rfl, by decide⟩ fun _ _ _ _ => rfl

theorem SpellsMembers.object {cs gap : List Char} {ms : List (Option String × Scanned)}
    (h : SpellsMembers cs ms) (hgap : Blank gap) :
    Spells ('\x7b' :: (gap ++ cs)) (.object ms none) := by
  refine .of_succ ⟨'\x7b', _, rfl, rfl, by decide⟩ fun n rest _ hn => ?_
  simp only [List.length_cons, List.length_append] at hn
  have hmembers := h.scans n rest (by omega)
  rcases h.starts with ⟨cs', rfl⟩
  rw [List.cons_append] at hmembers
  rw [List.cons_append, List.append_assoc, List.cons_append, scanWithin, skipBlanks_cons rfl]
  simp [skipBlanks_append hgap, skipBlanks_cons (show isBlank '"' = false from rfl), hmembers]

theorem Spells.scan {cs rest : List Char} {s : Scanned} (h : Spells cs s)
    (hrest : Numeral.Stops rest) : Scanned.scan (cs ++ rest) = (s, some rest) := by
  refine h.scans _ rest hrest ?_
  rw [List.length_append]
  omega

end Scanned

open Scanned

/-!
# The compact form
-/

theorem spellsItems_compactItems {v : Json} {vs : List Json}
    (h : ∀ w ∈ v :: vs, Spells w.compactChars w.tree) :
    SpellsItems (compactItems (v :: vs)) (treeItems (v :: vs)) := by
  induction vs generalizing v with
  | nil => exact (h v List.mem_cons_self).lastItem blank_nil
  | cons w vs ih =>
      rcases List.forall_mem_cons.mp h with ⟨hv, hvs⟩
      rw [compactItems]
      · exact hv.consItem blank_nil (ih hvs)
      · exact List.cons_ne_nil w vs

theorem spellsMembers_compactMembers {m : String × Json} {ms : List (String × Json)}
    (h : ∀ k ∈ m :: ms, Spells k.2.compactChars k.2.tree) :
    SpellsMembers (compactMembers (m :: ms)) (treeMembers (m :: ms)) := by
  induction ms generalizing m with
  | nil =>
      have hm := (h m List.mem_cons_self).lastMember blank_nil blank_nil m.1
      simpa [compactMembers, treeMembers] using hm
  | cons k ms ih =>
      rcases List.forall_mem_cons.mp h with ⟨hm, hms⟩
      have hcons := hm.consMember blank_nil blank_nil m.1 (ih hms)
      simpa [compactMembers, treeMembers] using hcons

theorem Plain.spells_compactChars {v : Json} (h : v.Plain) : Spells v.compactChars v.tree := by
  induction h with
  | null => exact spells_null
  | bool b => exact spells_bool b
  | @count n hn => exact spells_count n
  | string s => exact spells_quote s
  | @array items h ih =>
      cases items with
      | nil => exact spells_array_nil
      | cons v vs => exact (spellsItems_compactItems ih).array blank_nil
  | @object members h ih =>
      cases members with
      | nil => exact spells_object_nil
      | cons m ms => exact (spellsMembers_compactMembers ih).object blank_nil

theorem Plain.scan_compact {v : Json} (h : v.Plain) :
    scan v.compact.toList = (v.tree, some []) := by
  have hscan := h.spells_compactChars.scan Numeral.stops_nil
  rw [List.append_nil] at hscan
  rw [compact, String.toList_ofList, hscan]

/-!
# The pretty form
-/

theorem exists_spellsItems_prettyItems {level : Nat} {v : Json} {vs : List Json}
    (h : ∀ w ∈ v :: vs, Spells (w.prettyChars (level + 1)) w.tree) :
    ∃ cs, prettyItems level (v :: vs) = newline (level + 1) ++ cs ∧
      SpellsItems cs (treeItems (v :: vs)) := by
  induction vs generalizing v with
  | nil =>
      refine ⟨_, ?_, (h v List.mem_cons_self).lastItem (blank_newline level)⟩
      simp [prettyItems]
  | cons w vs ih =>
      rcases List.forall_mem_cons.mp h with ⟨hv, hvs⟩
      rcases ih hvs with ⟨cs, hcs, hitems⟩
      refine ⟨_, ?_, hv.consItem (blank_newline (level + 1)) hitems⟩
      simp [prettyItems, hcs]

theorem exists_spellsMembers_prettyMembers {level : Nat} {m : String × Json}
    {ms : List (String × Json)}
    (h : ∀ k ∈ m :: ms, Spells (k.2.prettyChars (level + 1)) k.2.tree) :
    ∃ cs, prettyMembers level (m :: ms) = newline (level + 1) ++ cs ∧
      SpellsMembers cs (treeMembers (m :: ms)) := by
  have hspace : Blank [' '] := List.forall_mem_singleton.mpr rfl
  induction ms generalizing m with
  | nil =>
      refine ⟨_, ?_, (h m List.mem_cons_self).lastMember hspace (blank_newline level) m.1⟩
      simp [prettyMembers]
  | cons k ms ih =>
      rcases List.forall_mem_cons.mp h with ⟨hm, hms⟩
      rcases ih hms with ⟨cs, hcs, hmembers⟩
      refine ⟨_, ?_, hm.consMember hspace (blank_newline (level + 1)) m.1 hmembers⟩
      simp [prettyMembers, hcs]

theorem Plain.spells_prettyChars {v : Json} (h : v.Plain) (level : Nat) :
    Spells (v.prettyChars level) v.tree := by
  induction h generalizing level with
  | null => exact spells_null
  | bool b =>
      cases b with
      | true => exact spells_bool true
      | false => exact spells_bool false
  | @count n hn => exact spells_count n
  | string s => exact spells_quote s
  | @array items h ih =>
      cases items with
      | nil => exact spells_array_nil
      | cons v vs =>
          rcases exists_spellsItems_prettyItems fun w hw => ih w hw (level + 1) with
            ⟨cs, hcs, hitems⟩
          rw [prettyChars, hcs]
          exact hitems.array (blank_newline (level + 1))
  | @object members h ih =>
      cases members with
      | nil => exact spells_object_nil
      | cons m ms =>
          rcases exists_spellsMembers_prettyMembers fun k hk => ih k hk (level + 1) with
            ⟨cs, hcs, hmembers⟩
          rw [prettyChars, hcs]
          exact hmembers.object (blank_newline (level + 1))

/-- The pretty form is scanned like the compact one, and may end with a line of its own. -/
theorem Plain.scan_pretty {v : Json} (h : v.Plain) {rest : List Char}
    (hrest : Numeral.Stops rest) :
    scan (v.pretty.toList ++ rest) = (v.tree, some rest) := by
  rw [pretty, String.toList_ofList]
  exact (h.spells_prettyChars 0).scan hrest

end Json

end ClauseInduction
