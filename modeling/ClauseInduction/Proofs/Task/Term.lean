import ClauseInduction.Task.TermReader
import ClauseInduction.Task.Writer
import ClauseInduction.Proofs.Json.Reader

/-!
# Documents of terms

A saturated term is read back from its document.  Every term that is read is saturated, and its own
document is nested no deeper than the one that it was read from.
-/

namespace ClauseInduction

open Json (Reader Scanned Plain)

namespace Term

theorem toJsonList_eq_map (ts : List Term) : toJsonList ts = ts.map toJson := by
  induction ts with
  | nil => rfl
  | cons t ts ih => rw [toJsonList, ih, List.map_cons]

theorem plain_tagged {kind : String} {ms : List (String × Json)}
    (h : ∀ m ∈ ms, m.1 ≠ "type" ∧ m.2.Plain) :
    Plain (.object (("type", .string kind) :: ms)) :=
  .object (List.forall_mem_cons.mpr ⟨.string kind, fun m hm => (h m hm).right⟩)

theorem exists_toJson_eq (t : Term) :
    ∃ kind ms, t.toJson = .object (("type", .string kind) :: ms) ∧ Kind.ofName? kind ≠ none ∧
      ∀ m ∈ ms, m.1 ≠ "type" ∧ m.2.Plain := by
  have hname : "name" ≠ "type" := by decide
  have hargs : "args" ≠ "type" := by decide
  induction t with
  | var x =>
      refine ⟨"Variable", [("name", .string x)], rfl, by decide, ?_⟩
      intro m hm
      rw [List.mem_singleton.mp hm]
      exact ⟨hname, .string x⟩
  | const c =>
      refine ⟨"Constant", [("name", .string c)], rfl, by decide, ?_⟩
      intro m hm
      rw [List.mem_singleton.mp hm]
      exact ⟨hname, .string c⟩
  | app f args ih =>
      have hlist : Plain (.array (toJsonList args)) := by
        rw [toJsonList_eq_map]
        refine .array (List.forall_mem_map.mpr fun t ht => ?_)
        rcases ih t ht with ⟨kind, ms, hjson, -, hms⟩
        exact hjson ▸ plain_tagged hms
      refine ⟨"Function", [("name", .string f.name), ("args", .array (toJsonList args))], rfl,
        by decide, ?_⟩
      intro m hm
      rcases List.mem_cons.mp hm with rfl | hm
      · exact ⟨hname, .string f.name⟩
      · rw [List.mem_singleton.mp hm]
        exact ⟨hargs, hlist⟩

theorem plain_toJson (t : Term) : t.toJson.Plain := by
  rcases exists_toJson_eq t with ⟨kind, ms, hjson, -, hms⟩
  exact hjson ▸ plain_tagged hms

/-!
# Reading back
-/

theorem ofItems?_map_toJson {ts : List Term} (h : ∀ t ∈ ts, ofJson? t.toJson = some t) :
    ofItems? (ts.map toJson) = some ts := by
  induction ts with
  | nil => rfl
  | cons t ts ih =>
      rcases List.forall_mem_cons.mp h with ⟨ht, hts⟩
      rw [List.map_cons, ofItems?, ht, ih hts]

theorem ofJson?_toJson {t : Term} (h : t.Saturated) : ofJson? t.toJson = some t := by
  induction t with
  | var x => rfl
  | const c => rfl
  | app f args ih =>
      rcases f with ⟨name, arity⟩
      rcases h with ⟨harity, hargs⟩
      cases harity
      have hitems := ofItems?_map_toJson fun t ht => ih t ht (saturatedList_iff.mp hargs t ht)
      have hargsIn : argumentsIn [("type", .string "Function"), ("name", .string name),
          ("args", .array (args.map toJson))] = [some args] := by
        simp [argumentsIn, listOfJson?, hitems]
      rw [toJson, toJsonList_eq_map, ofJson?, hargsIn]
      rfl

theorem readMembers_treeMembers {room : Nat} {ms : List (String × Json)}
    (h : ∀ m ∈ ms, m.1 ≠ "type" ∧ Scanned.value room m.2.tree = .ok m.2) (tagged : Bool) :
    readMembers room tagged (Json.treeMembers ms) = .ok ms := by
  induction ms with
  | nil => rfl
  | cons m ms ih =>
      rcases List.forall_mem_cons.mp h with ⟨⟨hkey, hvalue⟩, hrest⟩
      simp only [Json.treeMembers, readMembers, Scanned.text, bind, Except.bind, if_neg hkey,
        hvalue, ih hrest]
      rfl

theorem reads_toJson {t : Term} (h : t.Saturated) : Reader.Reads reader t.toJson t := by
  intro room hroom
  have ht := ofJson?_toJson h
  rcases exists_toJson_eq t with ⟨kind, ms, hjson, hkind, hms⟩
  rw [hjson] at hroom ht ⊢
  rcases Json.depth_object_le_iff.mp hroom with ⟨k, rfl, hdepth⟩
  have hrest : readMembers k true (Json.treeMembers ms) = .ok ms := by
    apply readMembers_treeMembers
    intro m hm
    exact ⟨(hms m hm).left, (hms m hm).right.value_tree (hdepth m (List.mem_cons_of_mem _ hm))⟩
  have htag : readTag (.string (some kind)) = .ok (.string kind) := by
    rcases Option.ne_none_iff_exists'.mp hkind with ⟨K, hK⟩
    rw [readTag, hK]
  have hmembers : readMembers k false (Json.treeMembers (("type", .string kind) :: ms)) =
      .ok (("type", .string kind) :: ms) := by
    rw [Json.treeMembers, Json.tree, readMembers, htag, hrest]
    rfl
  rw [Json.tree, reader, hmembers]
  exact Reader.finish_eq_ok_iff.mpr ht

/-!
# What is read
-/

/-- The term is saturated, and its document fits into a number of levels. -/
def Fits (room : Nat) (t : Term) : Prop :=
  t.Saturated ∧ t.toJson.depth ≤ room

theorem depth_toJson_app_le_iff {f : FunctionSymbol} {args : List Term} {n : Nat} :
    (app f args).toJson.depth ≤ n ↔ 2 ≤ n ∧ ∀ t ∈ args, t.toJson.depth + 2 ≤ n := by
  have hdepth : (app f args).toJson.depth = Json.depthItems (args.map toJson) + 2 := by
    simp [toJson, toJsonList_eq_map, Json.depth, Json.depthMembers]
  rw [hdepth, Json.depthItems_add_le_iff, List.forall_mem_map]

theorem ofParts?_eq_app {kind : Kind} {name : String} {readings : List (Option (List Term))}
    {f : FunctionSymbol} {ts : List Term} (h : ofParts? kind name readings = some (app f ts)) :
    readings = [some ts] ∧ f.arity = ts.length := by
  cases kind with
  | var => cases h
  | const => cases h
  | app =>
      rcases readings with _ | ⟨_ | us, _ | _⟩
      · cases h
      · cases h
      · cases h
      · cases h
        exact ⟨rfl, rfl⟩
      · cases h

theorem exists_member_of_argumentsIn {ms : List (String × Json)} {ts : List Term}
    (h : some ts ∈ argumentsIn ms) : ∃ m ∈ ms, listOfJson? m.2 = some ts := by
  induction ms with
  | nil => cases h
  | cons m ms ih =>
      rw [argumentsIn] at h
      by_cases hkey : m.1 = "args"
      · rw [if_pos hkey] at h
        rcases List.mem_cons.mp h with hlist | hrest
        · exact ⟨m, List.mem_cons_self, hlist.symm⟩
        · rcases ih hrest with ⟨m', hm', hlist⟩
          exact ⟨m', List.mem_cons_of_mem m hm', hlist⟩
      · rw [if_neg hkey] at h
        rcases ih h with ⟨m', hm', hlist⟩
        exact ⟨m', List.mem_cons_of_mem m hm', hlist⟩

theorem exists_item_of_ofItems? {items : List Json} {ts : List Term}
    (h : ofItems? items = some ts) : ∀ t ∈ ts, ∃ v ∈ items, ofJson? v = some t := by
  induction items generalizing ts with
  | nil =>
      cases h
      exact fun t ht => nomatch ht
  | cons v vs ih =>
      rw [ofItems?] at h
      cases hv : ofJson? v with
      | none =>
          rw [hv] at h
          cases h
      | some u =>
          cases hvs : ofItems? vs with
          | none =>
              simp only [hv, hvs] at h
              cases h
          | some us =>
              simp only [hv, hvs] at h
              cases h
              refine List.forall_mem_cons.mpr ⟨⟨v, List.mem_cons_self, hv⟩, fun t ht => ?_⟩
              rcases ih hvs t ht with ⟨w, hw, hwt⟩
              exact ⟨w, List.mem_cons_of_mem v hw, hwt⟩

theorem exists_items_of_listOfJson? {v : Json} {ts : List Term} (h : listOfJson? v = some ts) :
    ∃ items, v = .array items ∧ ∀ t ∈ ts, ∃ w ∈ items, ofJson? w = some t := by
  cases v with
  | array items =>
      rw [listOfJson?] at h
      exact ⟨items, rfl, exists_item_of_ofItems? h⟩
  | _ => cases h

theorem depth_pos_of_ofJson? {v : Json} {t : Term} (h : ofJson? v = some t) : 1 ≤ v.depth := by
  cases v with
  | array items => exact Nat.succ_pos _
  | object members => exact Nat.succ_pos _
  | _ => cases h

theorem exists_args_of_ofJson? {v : Json} {f : FunctionSymbol} {ts : List Term}
    (h : ofJson? v = some (app f ts)) :
    f.arity = ts.length ∧ ∃ w, listOfJson? w = some ts ∧ w.depth < v.depth := by
  unfold ofJson? at h
  split at h
  · rename_i members
    unfold ofMembers? at h
    split at h
    · rename_i tag name htag hname
      rcases Option.bind_eq_some_iff.mp h with ⟨kind, hkind, hparts⟩
      rcases ofParts?_eq_app hparts with ⟨hreadings, harity⟩
      have hmem : some ts ∈ argumentsIn members := hreadings ▸ List.mem_singleton.mpr rfl
      rcases exists_member_of_argumentsIn hmem with ⟨m, hm, hlist⟩
      exact ⟨harity, m.2, hlist, Json.depth_lt_depth_object hm⟩
    · cases h
  · split at h <;> cases h
  · rename_i tag name args
    split at h
    · rcases ofParts?_eq_app h with ⟨hreadings, harity⟩
      have hlist : listOfJson? args = some ts := List.head_eq_of_cons_eq hreadings
      exact ⟨harity, args, hlist, Json.depth_lt_depth_array (by simp)⟩
    · cases h
  · cases h

theorem fits_of_ofJson? {v : Json} {t : Term} (h : ofJson? v = some t) : t.Fits v.depth := by
  induction t generalizing v with
  | var x => exact ⟨trivial, depth_pos_of_ofJson? h⟩
  | const c => exact ⟨trivial, depth_pos_of_ofJson? h⟩
  | app f ts ih =>
      rcases exists_args_of_ofJson? h with ⟨harity, w, hlist, hdepth⟩
      rcases exists_items_of_listOfJson? hlist with ⟨items, rfl, hitems⟩
      have hts : ∀ t ∈ ts, t.Saturated ∧ t.toJson.depth < (Json.array items).depth := by
        intro t ht
        rcases hitems t ht with ⟨w, hw, hwt⟩
        rcases ih t ht hwt with ⟨hsaturated, hle⟩
        exact ⟨hsaturated, Nat.lt_of_le_of_lt hle (Json.depth_lt_depth_array hw)⟩
      refine ⟨⟨harity, saturatedList_iff.mpr fun t ht => (hts t ht).left⟩, ?_⟩
      have hpos : 1 ≤ (Json.array items).depth := Nat.succ_pos _
      refine depth_toJson_app_le_iff.mpr ⟨by omega, fun t ht => ?_⟩
      have := (hts t ht).right
      omega

theorem depth_eq_zero_of_readTag {s : Scanned} {v : Json} (h : readTag s = .ok v) :
    v.depth = 0 := by
  unfold readTag at h
  split at h
  · split at h <;> cases h
    rfl
  · cases h

theorem depth_le_of_readMembers {room : Nat} {tagged : Bool}
    {ss : List (Option String × Scanned)} {ms : List (String × Json)}
    (h : readMembers room tagged ss = .ok ms) : ∀ m ∈ ms, m.2.depth ≤ room := by
  induction ss generalizing tagged ms with
  | nil =>
      cases h
      exact fun m hm => nomatch hm
  | cons s ss ih =>
      rw [readMembers] at h
      rcases bind_eq_ok_iff.mp h with ⟨key, -, hkey⟩
      by_cases htype : key = "type"
      · rw [if_pos htype] at hkey
        cases tagged with
        | true => cases hkey
        | false =>
            rcases bind_eq_ok_iff.mp hkey with ⟨tag, htag, hrest⟩
            rcases bind_eq_ok_iff.mp hrest with ⟨ms', hms', hcons⟩
            cases hcons
            have hdepth : tag.depth ≤ room := by
              rw [depth_eq_zero_of_readTag htag]
              exact Nat.zero_le room
            exact List.forall_mem_cons.mpr ⟨hdepth, ih hms'⟩
      · rw [if_neg htype] at hkey
        rcases bind_eq_ok_iff.mp hkey with ⟨v, hv, hrest⟩
        rcases bind_eq_ok_iff.mp hrest with ⟨ms', hms', hcons⟩
        cases hcons
        exact List.forall_mem_cons.mpr ⟨Json.depth_le_of_value hv, ih hms'⟩

theorem fits_of_finish {room : Nat} {v : Json} {t : Term}
    (h : Reader.finish (ofJson? v) = .ok t) (hdepth : v.depth ≤ room) : t.Fits room := by
  rcases fits_of_ofJson? (Reader.finish_eq_ok_iff.mp h) with ⟨hsaturated, hle⟩
  exact ⟨hsaturated, Nat.le_trans hle hdepth⟩

theorem ensures_reader (room : Nat) : Reader.Ensures reader room (Fits room) := by
  intro s t ht
  cases room with
  | zero => cases s <;> cases ht
  | succ k =>
      cases s with
      | object ss stop =>
          rw [reader] at ht
          rcases bind_eq_ok_iff.mp ht with ⟨ms, hms, hrest⟩
          rcases bind_eq_ok_iff.mp hrest with ⟨ms', hclosed, hfinish⟩
          rcases Json.closed_eq_ok_iff.mp hclosed with ⟨-, rfl⟩
          have hdepth := depth_le_of_readMembers hms
          exact fits_of_finish hfinish (Json.depth_object_le_iff.mpr ⟨k, rfl, hdepth⟩)
      | array ss stop =>
          cases ss with
          | nil =>
              rw [reader] at ht
              rcases bind_eq_ok_iff.mp ht with ⟨-, -, herror⟩
              cases herror
          | cons tag ss =>
              rw [reader] at ht
              rcases bind_eq_ok_iff.mp ht with ⟨kind, hkind, hrest⟩
              rcases bind_eq_ok_iff.mp hrest with ⟨vs, hvs, hrest⟩
              rcases bind_eq_ok_iff.mp hrest with ⟨vs', hclosed, hfinish⟩
              rcases Json.closed_eq_ok_iff.mp hclosed with ⟨-, rfl⟩
              have hdepth : ∀ v ∈ kind :: vs, v.depth ≤ k := by
                refine List.forall_mem_cons.mpr ⟨?_, ?_⟩
                · rw [depth_eq_zero_of_readTag hkind]
                  exact Nat.zero_le k
                · exact Json.depth_le_of_valueItems (fun _ _ => Json.depth_le_of_value) hvs
              exact fits_of_finish hfinish (Json.depth_array_le_iff.mpr ⟨k, rfl, hdepth⟩)
      | _ => cases ht

end Term

end ClauseInduction
