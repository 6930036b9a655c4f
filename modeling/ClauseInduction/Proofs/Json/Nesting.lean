import ClauseInduction.Proofs.Json.Scan

/-!
# Nesting

How deep arrays and objects are nested in a value.  A tree that is looked at with room for a number
of levels gives a value of no more levels, and the tree of a value gives the value back if there is
room for it.
-/

namespace ClauseInduction

theorem bind_eq_ok_iff {ε α β : Type} {x : Except ε α} {f : α → Except ε β} {b : β} :
    x >>= f = .ok b ↔ ∃ a, x = .ok a ∧ f a = .ok b := by
  cases x with
  | error e =>
      constructor
      · intro h
        cases h
      · intro h
        rcases h with ⟨a, h, -⟩
        cases h
  | ok a =>
      constructor
      · intro h
        exact ⟨a, rfl, h⟩
      · intro h
        rcases h with ⟨a', h, hf⟩
        cases h
        exact hf

theorem map_eq_ok_iff {ε α β : Type} {x : Except ε α} {f : α → β} {b : β} :
    x.map f = .ok b ↔ ∃ a, x = .ok a ∧ f a = b := by
  cases x <;> simp [Except.map]

namespace Json

mutual

def depth : Json → Nat
  | array items => depthItems items + 1
  | object members => depthMembers members + 1
  | _ => 0

def depthItems : List Json → Nat
  | [] => 0
  | v :: vs => max (depth v) (depthItems vs)

def depthMembers : List (String × Json) → Nat
  | [] => 0
  | (_, v) :: members => max (depth v) (depthMembers members)

end

theorem depthItems_add_le_iff {vs : List Json} {a n : Nat} :
    depthItems vs + a ≤ n ↔ a ≤ n ∧ ∀ v ∈ vs, v.depth + a ≤ n := by
  induction vs with
  | nil => simp [depthItems]
  | cons v vs ih =>
      rw [depthItems, ← Nat.add_max_add_right, Nat.max_le, ih, List.forall_mem_cons]
      exact and_left_comm

theorem depthItems_le_iff {vs : List Json} {n : Nat} :
    depthItems vs ≤ n ↔ ∀ v ∈ vs, v.depth ≤ n := by
  simpa using depthItems_add_le_iff (a := 0) (n := n)

theorem depthMembers_le_iff {ms : List (String × Json)} {n : Nat} :
    depthMembers ms ≤ n ↔ ∀ m ∈ ms, m.2.depth ≤ n := by
  induction ms with
  | nil => simp [depthMembers]
  | cons m ms ih => rw [depthMembers, Nat.max_le, ih, List.forall_mem_cons]

theorem depth_array_le_iff {vs : List Json} {room : Nat} :
    (array vs).depth ≤ room ↔ ∃ k, room = k + 1 ∧ ∀ v ∈ vs, v.depth ≤ k := by
  rw [depth]
  cases room with
  | zero => simp
  | succ k => simp [depthItems_le_iff]

theorem depth_object_le_iff {ms : List (String × Json)} {room : Nat} :
    (object ms).depth ≤ room ↔ ∃ k, room = k + 1 ∧ ∀ m ∈ ms, m.2.depth ≤ k := by
  rw [depth]
  cases room with
  | zero => simp
  | succ k => simp [depthMembers_le_iff]

theorem depth_lt_depth_array {vs : List Json} {v : Json} (h : v ∈ vs) :
    v.depth < (array vs).depth := by
  rcases depth_array_le_iff.mp (Nat.le_refl (array vs).depth) with ⟨k, hk, hitems⟩
  rw [hk]
  exact Nat.lt_succ_of_le (hitems v h)

theorem depth_lt_depth_object {ms : List (String × Json)} {m : String × Json} (h : m ∈ ms) :
    m.2.depth < (object ms).depth := by
  rcases depth_object_le_iff.mp (Nat.le_refl (object ms).depth) with ⟨k, hk, hmembers⟩
  rw [hk]
  exact Nat.lt_succ_of_le (hmembers m h)

/-!
# Values that are looked at as a whole
-/

open Scanned

theorem valueItems_treeItems {room : Nat} {vs : List Json}
    (h : ∀ v ∈ vs, value room v.tree = .ok v) : valueItems room (treeItems vs) = .ok vs := by
  induction vs with
  | nil => rfl
  | cons v vs ih =>
      rcases List.forall_mem_cons.mp h with ⟨hv, hvs⟩
      rw [treeItems, valueItems, hv, ih hvs]
      rfl

theorem valueMembers_treeMembers {room : Nat} {ms : List (String × Json)}
    (h : ∀ m ∈ ms, value room m.2.tree = .ok m.2) :
    valueMembers room (treeMembers ms) = .ok ms := by
  induction ms with
  | nil => rfl
  | cons m ms ih =>
      rcases List.forall_mem_cons.mp h with ⟨hm, hms⟩
      rw [treeMembers, valueMembers, hm, ih hms]
      rfl

theorem Plain.value_tree {v : Json} (h : v.Plain) {room : Nat}
    (hroom : v.depth ≤ room) : value room v.tree = .ok v := by
  induction h generalizing room with
  | null => cases room <;> rfl
  | bool b => cases room <;> rfl
  | @count n hn =>
      have hvalue : numeral (.ofNat n) = .ok (.ofNat n) := if_pos (Numeral.inRange_ofNat hn)
      cases room <;> rw [ofNat, tree, value, hvalue] <;> rfl
  | string s => cases room <;> rfl
  | array h ih =>
      rcases depth_array_le_iff.mp hroom with ⟨k, rfl, hitems⟩
      rw [tree, value, valueItems_treeItems fun v hv => ih v hv (hitems v hv)]
      rfl
  | object h ih =>
      rcases depth_object_le_iff.mp hroom with ⟨k, rfl, hmembers⟩
      rw [tree, value, valueMembers_treeMembers fun m hm => ih m hm (hmembers m hm)]
      rfl

theorem closed_eq_ok_iff {α : Type} {stop : Option Fault} {a b : α} :
    closed stop a = .ok b ↔ stop = none ∧ a = b := by
  cases stop <;> simp [closed]

theorem depth_le_of_valueItems {room : Nat}
    (hvalue : ∀ s v, value room s = .ok v → v.depth ≤ room) {ss : List Scanned} {vs : List Json}
    (h : valueItems room ss = .ok vs) : ∀ v ∈ vs, v.depth ≤ room := by
  induction ss generalizing vs with
  | nil =>
      cases h
      exact fun v hv => nomatch hv
  | cons s ss ih =>
      rw [valueItems] at h
      rcases bind_eq_ok_iff.mp h with ⟨v, hv, hrest⟩
      rcases bind_eq_ok_iff.mp hrest with ⟨vs', hvs, hcons⟩
      cases hcons
      exact List.forall_mem_cons.mpr ⟨hvalue s v hv, ih hvs⟩

theorem depth_le_of_valueMembers {room : Nat}
    (hvalue : ∀ s v, value room s = .ok v → v.depth ≤ room)
    {ss : List (Option String × Scanned)} {ms : List (String × Json)}
    (h : valueMembers room ss = .ok ms) : ∀ m ∈ ms, m.2.depth ≤ room := by
  induction ss generalizing ms with
  | nil =>
      cases h
      exact fun m hm => nomatch hm
  | cons s ss ih =>
      rw [valueMembers] at h
      rcases bind_eq_ok_iff.mp h with ⟨key, -, hkey⟩
      rcases bind_eq_ok_iff.mp hkey with ⟨v, hv, hrest⟩
      rcases bind_eq_ok_iff.mp hrest with ⟨ms', hms, hcons⟩
      cases hcons
      exact List.forall_mem_cons.mpr ⟨hvalue s.2 v hv, ih hms⟩

theorem depth_le_of_value {room : Nat} {s : Scanned} {v : Json} (h : value room s = .ok v) :
    v.depth ≤ room := by
  induction room using Nat.strongRecOn generalizing s v with
  | ind room ih =>
      cases s with
      | fault f =>
          rw [value] at h
          cases h
      | null =>
          rw [value] at h
          cases h
          exact Nat.zero_le room
      | bool b =>
          rw [value] at h
          cases h
          exact Nat.zero_le room
      | number n =>
          rw [value] at h
          rcases map_eq_ok_iff.mp h with ⟨m, -, rfl⟩
          exact Nat.zero_le room
      | string t =>
          rw [value] at h
          rcases map_eq_ok_iff.mp h with ⟨u, -, rfl⟩
          exact Nat.zero_le room
      | array items stop =>
          cases room with
          | zero => cases h
          | succ k =>
              rw [value] at h
              rcases bind_eq_ok_iff.mp h with ⟨vs, hvs, hclosed⟩
              rcases closed_eq_ok_iff.mp hclosed with ⟨-, rfl⟩
              have hitems := depth_le_of_valueItems (fun s v => ih k (Nat.lt_succ_self k)) hvs
              exact depth_array_le_iff.mpr ⟨k, rfl, hitems⟩
      | object members stop =>
          cases room with
          | zero => cases h
          | succ k =>
              rw [value] at h
              rcases bind_eq_ok_iff.mp h with ⟨ms, hms, hclosed⟩
              rcases closed_eq_ok_iff.mp hclosed with ⟨-, rfl⟩
              have hmembers := depth_le_of_valueMembers (fun s v => ih k (Nat.lt_succ_self k)) hms
              exact depth_object_le_iff.mpr ⟨k, rfl, hmembers⟩

end Json

end ClauseInduction
