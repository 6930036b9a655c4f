import Mathlib.Algebra.GroupWithZero.Nat
import ClauseInduction.Proofs.NameSupply

/-!
# Runs of requests

A supply answers one request after the other, each with its own reserved names.  From outside it is
a 64-bit counter, and a request is a loop without a bound: it draws values until the name of one is
not reserved.  The loop ends since different values have different names, and as long as no value is
drawn twice, no name is issued twice.
-/

namespace ClauseInduction
namespace NameSupply

/-!
# The counter
-/

def counter (s : NameSupply) : UInt64 :=
  .ofNat s.count

def startingAt (stem : String) (first : UInt64) : NameSupply :=
  ⟨stem, first.toNat⟩

def numbered (stem : String) (value : UInt64) : String :=
  stem ++ toString value.toNat

theorem nameAt_count_add (s : NameSupply) (k : Nat) :
    s.nameAt (s.count + k) = numbered s.stem (s.counter + .ofNat k) := by
  rw [counter, ← UInt64.ofNat_add, numbered, UInt64.toNat_ofNat']
  rfl

/-!
# The loop of one request
-/

/-- The `k`-th value from `v` on, round from the last one to zero, is the first whose name is not
reserved. -/
def FirstFree (stem : String) (reserved : List String) (v : UInt64) (k : Nat) : Prop :=
  (∀ j < k, numbered stem (v + .ofNat j) ∈ reserved) ∧ numbered stem (v + .ofNat k) ∉ reserved

/-- How the loop goes from a value of the counter: the number of values that it draws, and the last
of them. -/
inductive SearchEnds (stem : String) (reserved : List String) :
    UInt64 → Nat → UInt64 → Prop where
  | free {v : UInt64} (hv : numbered stem v ∉ reserved) : SearchEnds stem reserved v 1 v
  | taken {v w : UInt64} {n : Nat} (hv : numbered stem v ∈ reserved)
      (hrest : SearchEnds stem reserved (v + 1) n w) : SearchEnds stem reserved v (n + 1) w

theorem FirstFree.searchEnds {stem : String} {reserved : List String} {v : UInt64} {k : Nat}
    (h : FirstFree stem reserved v k) :
    SearchEnds stem reserved v (k + 1) (v + .ofNat k) := by
  rcases h with ⟨htaken, hfree⟩
  have hstart : ∀ v : UInt64, v + .ofNat 0 = v := UInt64.add_zero
  have hnext : ∀ (v : UInt64) (j : Nat), v + 1 + .ofNat j = v + .ofNat (j + 1) := by
    intro v j
    rw [UInt64.add_assoc, UInt64.add_comm 1, UInt64.ofNat_add]
    rfl
  induction k generalizing v with
  | zero =>
      rw [hstart] at hfree ⊢
      exact .free hfree
  | succ k ih =>
      have hv : numbered stem v ∈ reserved := by
        rw [← hstart v]
        exact htaken 0 (Nat.succ_pos k)
      rw [← hnext] at hfree ⊢
      refine .taken hv (ih ?_ hfree)
      intro j hj
      rw [hnext]
      exact htaken (j + 1) (Nat.succ_lt_succ hj)

theorem fresh_firstFree {reserved : List String} (hcard : reserved.toFinset.card < period)
    (s : NameSupply) :
    ∃ k ≤ reserved.toFinset.card, FirstFree s.stem reserved s.counter k ∧
      s.fresh reserved =
        (numbered s.stem (s.counter + .ofNat k), { s with count := s.count + k + 1 }) := by
  rcases fresh_spec reserved s with ⟨c, hc, hfresh, htaken, hfree⟩
  rcases Nat.exists_eq_add_of_le hc with ⟨k, rfl⟩
  have htaken : ∀ j < k, s.nameAt (s.count + j) ∈ reserved := by
    intro j hj
    exact htaken _ (Nat.le_add_right _ _) (Nat.add_lt_add_left hj _)
  -- otherwise the names of a whole period would be reserved
  have hperiod : k < period := by
    by_contra hlong
    have hall : period ≤ reserved.toFinset.card :=
      le_card_of_nameAt_mem (Nat.le_refl _) fun j hj =>
        htaken j (Nat.lt_of_lt_of_le hj (Nat.le_of_not_lt hlong))
    exact absurd hcard (Nat.not_lt_of_le hall)
  refine ⟨k, le_card_of_nameAt_mem (Nat.le_of_lt hperiod) htaken, ⟨?_, ?_⟩, ?_⟩
  · intro j hj
    rw [← nameAt_count_add]
    exact htaken j hj
  · rw [← nameAt_count_add]
    exact hfree (Nat.add_lt_add_left hperiod _)
  · rw [← nameAt_count_add]
    exact hfresh

/-!
# Sequences of requests
-/

structure Issue where
  before : NameSupply
  reserved : List String
  name : String
  after : NameSupply

def Issue.drawn (i : Issue) : Nat :=
  i.after.count - i.before.count

def issues : List (List String) → NameSupply → List Issue
  | [], _ => []
  | reserved :: requests, s =>
      let (name, after) := s.fresh reserved
      ⟨s, reserved, name, after⟩ :: issues requests after

theorem issues_cons (reserved : List String) (requests : List (List String)) (s : NameSupply) :
    issues (reserved :: requests) s =
      ⟨s, reserved, (s.fresh reserved).1, (s.fresh reserved).2⟩ ::
        issues requests (s.fresh reserved).2 :=
  rfl

theorem mem_issues {requests : List (List String)} {s : NameSupply} {i : Issue}
    (hi : i ∈ issues requests s) :
    i.reserved ∈ requests ∧ i.before.stem = s.stem ∧
      i.before.fresh i.reserved = (i.name, i.after) := by
  induction requests generalizing s with
  | nil => cases hi
  | cons reserved requests ih =>
      rw [issues_cons] at hi
      rcases List.mem_cons.mp hi with rfl | hi
      · exact ⟨List.mem_cons_self, rfl, rfl⟩
      · rcases ih hi with ⟨hmem, hstem, hfresh⟩
        exact ⟨List.mem_cons_of_mem _ hmem, hstem.trans (stem_fresh reserved s), hfresh⟩

theorem exists_issues_of_prefix {stretch : List Issue} {requests : List (List String)}
    {s : NameSupply} (h : stretch <+: issues requests s) :
    ∃ requests', stretch = issues requests' s := by
  induction requests generalizing s stretch with
  | nil => exact ⟨[], List.prefix_nil.mp h⟩
  | cons reserved requests ih =>
      rw [issues_cons] at h
      rcases List.prefix_cons_iff.mp h with rfl | ⟨rest, rfl, hrest⟩
      · exact ⟨[], rfl⟩
      · rcases ih hrest with ⟨requests', rfl⟩
        exact ⟨reserved :: requests', rfl⟩

theorem exists_issues_of_infix {stretch : List Issue} {requests : List (List String)}
    {s : NameSupply} (h : stretch <:+: issues requests s) :
    ∃ requests' s', stretch = issues requests' s' := by
  induction requests generalizing s with
  | nil => exact ⟨[], s, List.infix_nil.mp h⟩
  | cons reserved requests ih =>
      rcases List.infix_cons_iff.mp h with hprefix | htail
      · have hprefix : stretch <+: issues (reserved :: requests) s := hprefix
        rcases exists_issues_of_prefix hprefix with ⟨requests', hstretch⟩
        exact ⟨requests', s, hstretch⟩
      · exact ih htail

theorem exists_issues_cons (reserved : List String) (requests : List (List String))
    (s : NameSupply) :
    ∃ c i t, s.count ≤ c ∧ t.stem = s.stem ∧ t.count = c + 1 ∧ i.name = s.nameAt c ∧
      i.drawn = c + 1 - s.count ∧ issues (reserved :: requests) s = i :: issues requests t := by
  rcases fresh_spec reserved s with ⟨c, hc, hfresh, -, -⟩
  refine ⟨c, ⟨s, reserved, s.nameAt c, { s with count := c + 1 }⟩, { s with count := c + 1 },
    hc, rfl, rfl, rfl, rfl, ?_⟩
  rw [issues_cons, hfresh]

theorem exists_count_of_mem_issues {requests : List (List String)} {s : NameSupply} {i : Issue}
    (hi : i ∈ issues requests s) :
    ∃ c, i.name = s.nameAt c ∧ s.count ≤ c ∧
      c < s.count + ((issues requests s).map Issue.drawn).sum := by
  induction requests generalizing s with
  | nil => cases hi
  | cons reserved requests ih =>
      rcases exists_issues_cons reserved requests s with
        ⟨c, head, t, hc, hstem, hcount, hname, hdrawn, hcons⟩
      rw [hcons, List.map_cons, List.sum_cons, hdrawn]
      rw [hcons] at hi
      rcases List.mem_cons.mp hi with rfl | hi
      · exact ⟨c, hname, hc, by omega⟩
      · rcases ih hi with ⟨d, hname', hd, hd'⟩
        rw [nameAt_congr hstem] at hname'
        exact ⟨d, hname', by omega, by omega⟩

/-- The first request of a run draws smaller counts than all others. -/
theorem nodup_map_name_issues {requests : List (List String)} {s : NameSupply}
    (h : ((issues requests s).map Issue.drawn).sum ≤ period) :
    ((issues requests s).map Issue.name).Nodup := by
  induction requests generalizing s with
  | nil => exact List.nodup_nil
  | cons reserved requests ih =>
      rcases exists_issues_cons reserved requests s with
        ⟨c, head, t, hc, hstem, hcount, hname, hdrawn, hcons⟩
      rw [hcons, List.map_cons, List.sum_cons, hdrawn] at h
      rw [hcons, List.map_cons, List.nodup_cons]
      refine ⟨?_, ih (by omega)⟩
      intro hmem
      rcases List.mem_map.mp hmem with ⟨i, hi, hrepeat⟩
      rcases exists_count_of_mem_issues hi with ⟨d, hname', hd, hd'⟩
      have heq : s.nameAt c = s.nameAt d := by
        rw [← hname, ← hrepeat, hname', nameAt_congr hstem]
      have hcd : c = d := eq_of_nameAt_eq s.count hc (by omega) (by omega) (by omega) heq
      omega

/-- Every request ends, since its reserved names are fewer than the values, and takes the first
value from the counter on whose name is not reserved.  Whatever is reserved, the names of a stretch
of requests are different as long as the stretch draws at most a period of values. -/
theorem issues_firstFree_nodup (stem : String) (first : UInt64) (requests : List (List String)) :
    ((∀ reserved ∈ requests, reserved.toFinset.card < period) →
      ∀ i ∈ issues requests (startingAt stem first), ∃ k ≤ i.reserved.toFinset.card,
        FirstFree stem i.reserved i.before.counter k ∧
        SearchEnds stem i.reserved i.before.counter (k + 1) (i.before.counter + .ofNat k) ∧
        i.name = numbered stem (i.before.counter + .ofNat k) ∧
        i.after.counter = i.before.counter + .ofNat k + 1 ∧ i.drawn = k + 1) ∧
    ∀ stretch, stretch <:+: issues requests (startingAt stem first) →
      (stretch.map Issue.drawn).sum ≤ period → (stretch.map Issue.name).Nodup := by
  constructor
  · intro hcard i hi
    rcases mem_issues hi with ⟨hmem, hstem, hissue⟩
    change i.before.stem = stem at hstem
    subst hstem
    rcases fresh_firstFree (hcard i.reserved hmem) i.before with ⟨k, hk, hfirst, hfresh⟩
    rcases Prod.mk.inj (hissue.symm.trans hfresh) with ⟨hname, hafter⟩
    refine ⟨k, hk, hfirst, hfirst.searchEnds, hname, ?_, ?_⟩
    · rw [hafter, counter, UInt64.ofNat_add, UInt64.ofNat_add]
      rfl
    · rw [Issue.drawn, hafter]
      change i.before.count + k + 1 - i.before.count = k + 1
      omega
  · intro stretch hstretch hdrawn
    rcases exists_issues_of_infix hstretch with ⟨requests', s, rfl⟩
    exact nodup_map_name_issues hdrawn

def edgeRequests : List (List String) :=
  [["V18446744073709551614"], ["V0", "V0"], []]

def edgeIssues : List Issue :=
  issues edgeRequests (startingAt "V" 18446744073709551614)

/-- The first request skips the last value but one, the second one goes round and skips zero. -/
theorem nodup_edgeIssues :
    (∀ reserved ∈ edgeRequests, reserved.toFinset.card < period) ∧
    edgeIssues.map Issue.name = ["V18446744073709551615", "V1", "V2"] ∧
    (∀ i ∈ edgeIssues, ∃ k ≤ i.reserved.toFinset.card,
      SearchEnds "V" i.reserved i.before.counter (k + 1) (i.before.counter + .ofNat k) ∧
      i.drawn = k + 1) ∧
    (edgeIssues.map Issue.drawn).sum ≤ period ∧ (edgeIssues.map Issue.name).Nodup := by
  have hcard : ∀ reserved ∈ edgeRequests, reserved.toFinset.card < period := by decide
  have hdrawn : (edgeIssues.map Issue.drawn).sum ≤ period := by decide
  rcases issues_firstFree_nodup "V" 18446744073709551614 edgeRequests with ⟨hfirst, hnodup⟩
  refine ⟨hcard, by decide, ?_, hdrawn, hnodup edgeIssues List.infix_rfl hdrawn⟩
  intro i hi
  rcases hfirst hcard i hi with ⟨k, hk, -, hends, -, -, hk'⟩
  exact ⟨k, hk, hends, hk'⟩

end NameSupply
end ClauseInduction
