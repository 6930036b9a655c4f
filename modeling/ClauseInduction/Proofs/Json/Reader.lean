import ClauseInduction.Json.Reader
import ClauseInduction.Proofs.Json.Nesting

/-!
# Laws of readers

A reader is put together from readers of the parts, and so are the two things that are said of it:
which trees of values it reads, and what holds of everything that it gives.  Both count the levels
that there is room for.
-/

namespace ClauseInduction

namespace Json

namespace Reader

variable {α β γ δ : Type}

/-!
# What is read
-/

/-- The tree of the value is read as `a` wherever there is room for it. -/
def Reads (read : Reader α) (v : Json) (a : α) : Prop :=
  ∀ room, v.depth ≤ room → read room v.tree = .ok a

theorem reads_bool (b : Bool) : Reads bool (.bool b) b := by
  intro room hroom
  rfl

theorem reads_string (s : String) : Reads string (.string s) s := by
  intro room hroom
  rfl

theorem reads_list {read : Reader α} {write : α → Json} {as : List α}
    (h : ∀ a ∈ as, Reads read (write a) a) : Reads (list read) (.array (as.map write)) as := by
  intro room hroom
  rcases depth_array_le_iff.mp hroom with ⟨k, rfl, hdepth⟩
  have hitems : items read k (treeItems (as.map write)) = .ok as := by
    clear hroom
    induction as with
    | nil => rfl
    | cons a as ih =>
        rcases List.forall_mem_cons.mp h with ⟨ha, has⟩
        rcases List.forall_mem_cons.mp hdepth with ⟨hdepth, hdepths⟩
        rw [List.map_cons, treeItems, items, ha k hdepth, ih has hdepths]
        rfl
  rw [tree, list, hitems]
  rfl

theorem finish_eq_ok_iff {a : Option α} {b : α} : finish a = .ok b ↔ a = some b := by
  cases a <;> simp [finish]

theorem members_cons {fields : List (Field δ)} {f : Field δ} {room : Nat} {key : String}
    {s : Scanned} {ms : List (Option String × Scanned)} {d d' e : δ}
    (hfind : fields.find? (fun g => g.name = key) = some f) (hgiven : f.given d = false)
    (hread : f.read d room s = .ok d') (hrest : members fields room ms d' = .ok e) :
    members fields room ((some key, s) :: ms) d = .ok e := by
  rw [members, hfind]
  simp only [hgiven, Bool.false_eq_true, if_false, hread]
  exact hrest

theorem record_object {fields : List (Field δ)} {start d : δ} {complete : δ → Option α} {a : α}
    {room : Nat} {ms : List (Option String × Scanned)}
    (hmembers : members fields room ms start = .ok d) (hcomplete : complete d = some a) :
    record fields start complete (room + 1) (.object ms none) = .ok a := by
  rw [record, hmembers]
  exact finish_eq_ok_iff.mpr hcomplete

section Records

variable {readFirst : Reader α} {readSecond : Reader β} {n m : String}
  {complete : Option α × Option β → Option γ}

theorem reads_record (hnm : n ≠ m) {u v : Json} {a : α} {b : β} {c : γ}
    (hu : Reads readFirst u a) (hv : Reads readSecond v b)
    (hcomplete : complete (some a, some b) = some c) :
    Reads (record [.first n readFirst, .second m readSecond] (none, none) complete)
      (.object [(n, u), (m, v)]) c := by
  intro room hroom
  rcases depth_object_le_iff.mp hroom with ⟨k, rfl, hdepth⟩
  have hfirst : ((Field.first n readFirst).read (none, none) k u.tree : Except _ (_ × Option β)) =
      .ok (some a, none) :=
    map_eq_ok_iff.mpr ⟨a, hu k (hdepth (n, u) List.mem_cons_self), rfl⟩
  have hsecond : (Field.second m readSecond).read (some a, none) k v.tree =
      .ok (some a, some b) :=
    map_eq_ok_iff.mpr ⟨b, hv k (hdepth (m, v) (List.mem_cons_of_mem _ List.mem_cons_self)), rfl⟩
  have hfindSecond : [Field.first n readFirst, Field.second m readSecond].find?
      (fun g => g.name = m) = some (Field.second m readSecond) := by
    simp [Field.first, Field.second, Field.ofPlace, hnm]
  refine record_object ?_ hcomplete
  refine members_cons (List.find?_cons_of_pos (decide_eq_true rfl)) rfl hfirst ?_
  exact members_cons hfindSecond rfl hsecond rfl

theorem reads_record_first {u : Json} {a : α} {c : γ} (hu : Reads readFirst u a)
    (hcomplete : complete (some a, none) = some c) :
    Reads (record [.first n readFirst, .second m readSecond] (none, none) complete)
      (.object [(n, u)]) c := by
  intro room hroom
  rcases depth_object_le_iff.mp hroom with ⟨k, rfl, hdepth⟩
  have hfirst : ((Field.first n readFirst).read (none, none) k u.tree : Except _ (_ × Option β)) =
      .ok (some a, none) :=
    map_eq_ok_iff.mpr ⟨a, hu k (hdepth (n, u) List.mem_cons_self), rfl⟩
  refine record_object ?_ hcomplete
  exact members_cons (List.find?_cons_of_pos (decide_eq_true rfl)) rfl hfirst rfl

theorem reads_record_only {complete : Option α → Option γ} {u : Json} {a : α} {c : γ}
    (hu : Reads readFirst u a) (hcomplete : complete (some a) = some c) :
    Reads (record [.only n readFirst] none complete) (.object [(n, u)]) c := by
  intro room hroom
  rcases depth_object_le_iff.mp hroom with ⟨k, rfl, hdepth⟩
  have honly : (Field.only n readFirst).read none k u.tree = .ok (some a) :=
    map_eq_ok_iff.mpr ⟨a, hu k (hdepth (n, u) List.mem_cons_self), rfl⟩
  refine record_object ?_ hcomplete
  exact members_cons (List.find?_cons_of_pos (decide_eq_true rfl)) rfl honly rfl

end Records

theorem run_compact {read : Reader α} {v : Json} {a : α} (hplain : v.Plain)
    (h : Reads read v a) (hdepth : v.depth ≤ maxDepth) : run read v.compact = .ok a := by
  rw [run, hplain.scan_compact]
  simp only [h maxDepth hdepth]
  rfl

theorem run_pretty {read : Reader α} {v : Json} {a : α} (hplain : v.Plain)
    (h : Reads read v a) (hdepth : v.depth ≤ maxDepth) : run read (v.pretty ++ "\n") = .ok a := by
  have hscan : Scanned.scan (v.pretty ++ "\n").toList = (v.tree, some ['\n']) := by
    rw [String.toList_append]
    exact hplain.scan_pretty (Numeral.stops_cons (by decide) [])
  rw [run, hscan]
  simp only [h maxDepth hdepth]
  rfl

theorem reads_value {v : Json} (hplain : v.Plain) : Reads Scanned.value v v :=
  fun _ hroom => hplain.value_tree hroom

/-!
# What is ensured
-/

/-- With room for a number of levels the reader gives nothing without the property. -/
def Ensures (read : Reader α) (room : Nat) (P : α → Prop) : Prop :=
  ∀ s a, read room s = .ok a → P a

theorem forall_mem_of_items {read : Reader α} {room : Nat} {P : α → Prop} (h : Ensures read room P)
    {ss : List Scanned} {as : List α} (has : items read room ss = .ok as) : ∀ a ∈ as, P a := by
  induction ss generalizing as with
  | nil =>
      cases has
      exact fun a ha => nomatch ha
  | cons s ss ih =>
      rw [items] at has
      rcases bind_eq_ok_iff.mp has with ⟨a, ha, hrest⟩
      rcases bind_eq_ok_iff.mp hrest with ⟨as', has', hcons⟩
      cases hcons
      exact List.forall_mem_cons.mpr ⟨h s a ha, ih has'⟩

theorem ensures_list {read : Reader α} {room : Nat} {P : α → Prop}
    (h : Ensures read (room - 1) P) : Ensures (list read) room fun as => ∀ a ∈ as, P a := by
  intro s as has
  cases room with
  | zero => cases s <;> cases has
  | succ k =>
      cases s with
      | array ss stop =>
          rw [list] at has
          rcases bind_eq_ok_iff.mp has with ⟨as', hitems, hclosed⟩
          rcases closed_eq_ok_iff.mp hclosed with ⟨-, rfl⟩
          exact forall_mem_of_items h hitems
      | _ => cases has

section Drafts

variable {fields : List (Field δ)} {room : Nat} {Q : δ → Prop}

theorem draft_of_members (hfields : ∀ f ∈ fields, ∀ d, Q d → Ensures (f.read d) room Q)
    {ss : List (Option String × Scanned)} {d d' : δ} (hd : Q d)
    (h : members fields room ss d = .ok d') : Q d' := by
  induction ss generalizing d with
  | nil =>
      cases h
      exact hd
  | cons s ss ih =>
      rcases s with ⟨key, s⟩
      cases key with
      | none => cases h
      | some key =>
          rw [members] at h
          cases hfind : fields.find? fun f => f.name = key with
          | none =>
              rw [hfind] at h
              cases hpass : s.passOver with
              | none =>
                  rw [hpass] at h
                  exact ih hd h
              | some r =>
                  rw [hpass] at h
                  cases h
          | some f =>
              rw [hfind] at h
              cases hgiven : f.given d with
              | true =>
                  simp only [hgiven, if_true] at h
                  cases h
              | false =>
                  simp only [hgiven, Bool.false_eq_true, if_false] at h
                  rcases bind_eq_ok_iff.mp h with ⟨e, hread, hrest⟩
                  exact ih (hfields f (List.mem_of_find?_eq_some hfind) d hd s e hread) hrest

theorem draft_of_places (hfields : ∀ f ∈ fields, ∀ d, Q d → Ensures (f.read d) room Q)
    {stop : Option Fault} {ss : List Scanned} {d d' : δ} (hd : Q d)
    (h : places stop room fields ss d = .ok d') : Q d' := by
  induction fields generalizing ss d with
  | nil =>
      cases ss with
      | nil =>
          rcases closed_eq_ok_iff.mp h with ⟨-, rfl⟩
          exact hd
      | cons s ss => cases h
  | cons f fields ih =>
      rcases List.forall_mem_cons.mp hfields with ⟨hf, hrest⟩
      cases ss with
      | nil =>
          rcases closed_eq_ok_iff.mp h with ⟨-, rfl⟩
          exact hd
      | cons s ss =>
          rw [places] at h
          rcases bind_eq_ok_iff.mp h with ⟨e, hread, hplaces⟩
          exact ih hrest (hf d hd s e hread) hplaces

end Drafts

/-- What holds of the first draft, and is kept by every field, holds of the complete draft. -/
theorem ensures_record {fields : List (Field δ)} {start : δ} {complete : δ → Option α} {room : Nat}
    {Q : δ → Prop} {P : α → Prop} (hstart : Q start)
    (hfields : ∀ f ∈ fields, ∀ d, Q d → Ensures (f.read d) (room - 1) Q)
    (hcomplete : ∀ d a, complete d = some a → Q d → P a) :
    Ensures (record fields start complete) room P := by
  intro s a ha
  cases room with
  | zero => cases s <;> cases ha
  | succ k =>
      cases s with
      | object ss stop =>
          rw [record] at ha
          rcases bind_eq_ok_iff.mp ha with ⟨d, hmembers, hrest⟩
          rcases bind_eq_ok_iff.mp hrest with ⟨d', hclosed, hfinish⟩
          rcases closed_eq_ok_iff.mp hclosed with ⟨-, rfl⟩
          exact hcomplete d a (finish_eq_ok_iff.mp hfinish)
            (draft_of_members hfields hstart hmembers)
      | array ss stop =>
          rw [record] at ha
          rcases bind_eq_ok_iff.mp ha with ⟨d, hplaces, hfinish⟩
          exact hcomplete d a (finish_eq_ok_iff.mp hfinish)
            (draft_of_places hfields hstart hplaces)
      | _ => cases ha

def DraftOf (P : α → Prop) (Q : β → Prop) (d : Option α × Option β) : Prop :=
  (∀ a, d.1 = some a → P a) ∧ ∀ b, d.2 = some b → Q b

theorem ensures_record_two {readFirst : Reader α} {readSecond : Reader β} {n m : String}
    {complete : Option α × Option β → Option γ} {room : Nat} {P : α → Prop} {Q : β → Prop}
    {R : γ → Prop} (hfirst : Ensures readFirst (room - 1) P)
    (hsecond : Ensures readSecond (room - 1) Q)
    (hcomplete : ∀ d c, complete d = some c → DraftOf P Q d → R c) :
    Ensures (record [.first n readFirst, .second m readSecond] (none, none) complete) room R := by
  have hstart : DraftOf P Q (none, none) := ⟨nofun, nofun⟩
  refine ensures_record hstart ?_ hcomplete
  intro f hf d hd s d' hread
  simp only [List.mem_cons, List.not_mem_nil, or_false] at hf
  rcases hf with rfl | rfl
  · rcases map_eq_ok_iff.mp hread with ⟨a, ha, rfl⟩
    refine ⟨fun a' ha' => ?_, hd.right⟩
    cases ha'
    exact hfirst s a ha
  · rcases map_eq_ok_iff.mp hread with ⟨b, hb, rfl⟩
    refine ⟨hd.left, fun b' hb' => ?_⟩
    cases hb'
    exact hsecond s b hb

theorem ensures_record_one {readOnly : Reader α} {n : String} {complete : Option α → Option γ}
    {room : Nat} {P : α → Prop} {R : γ → Prop} (honly : Ensures readOnly (room - 1) P)
    (hcomplete : ∀ d c, complete d = some c → (∀ a, d = some a → P a) → R c) :
    Ensures (record [.only n readOnly] none complete) room R := by
  have hstart : ∀ a, (none : Option α) = some a → P a := nofun
  refine ensures_record hstart ?_ hcomplete
  intro f hf d hd s d' hread a' ha'
  rw [List.mem_singleton.mp hf] at hread
  rcases map_eq_ok_iff.mp hread with ⟨a, ha, rfl⟩
  cases ha'
  exact honly s _ ha

theorem Ensures.of_run {read : Reader α} {P : α → Prop} (h : Ensures read maxDepth P)
    {text : String} {a : α} (hrun : run read text = .ok a) : P a := by
  rw [run] at hrun
  rcases hscan : Scanned.scan text.toList with ⟨s, rest⟩
  cases hread : read maxDepth s with
  | error r =>
      simp only [hscan, hread] at hrun
      cases hrun
  | ok b =>
      simp only [hscan, hread] at hrun
      have hb : b = a := by
        cases rest with
        | none => cases hrun
        | some cs =>
            by_cases hblank : Scanned.skipBlanks cs = []
            · simp only [if_pos hblank] at hrun
              exact Except.ok.inj hrun
            · simp only [if_neg hblank] at hrun
              cases hrun
      exact hb ▸ h s b hread

end Reader

end Json

end ClauseInduction
