import ClauseInduction.Task.Reader
import ClauseInduction.Proofs.Task.Term

/-!
# Documents of tasks

The document of a saturated task is read back as that task, with every name, order and repetition,
exactly when it is not nested too deeply.
-/

namespace ClauseInduction

open Json (Reader Plain)

/-!
# Nesting of documents
-/

theorem Literal.depth_toJson_le_iff {l : Literal} {n : Nat} :
    l.toJson.depth ≤ n ↔ 2 ≤ n ∧ ∀ t ∈ l.args, t.toJson.depth + 3 ≤ n := by
  by_cases hargs : l.args = []
  · simp [toJson, atomToJson, hargs, Json.depth, Json.depthMembers]
  · have hdepth : l.toJson.depth = Json.depthItems (l.args.map Term.toJson) + 3 := by
      simp [toJson, atomToJson, hargs, Term.toJsonList_eq_map, Json.depth, Json.depthMembers]
    rw [hdepth, Json.depthItems_add_le_iff, List.forall_mem_map]
    rcases List.exists_mem_of_ne_nil _ hargs with ⟨t, ht⟩
    constructor
    · intro h
      exact ⟨by omega, h.right⟩
    · intro h
      have hdeep := h.right t ht
      exact ⟨by omega, h.right⟩

theorem depth_literalsToJson_le_iff {ls : List Literal} {n : Nat} :
    (literalsToJson ls).depth ≤ n ↔ 2 ≤ n ∧ ∀ l ∈ ls, l.toJson.depth + 2 ≤ n := by
  have hdepth : (literalsToJson ls).depth = Json.depthItems (ls.map Literal.toJson) + 2 := by
    simp [literalsToJson, Json.depth, Json.depthMembers]
  rw [hdepth, Json.depthItems_add_le_iff, List.forall_mem_map]

theorem Example.depth_toJson (e : Example) :
    e.toJson.depth = (literalsToJson e.literals).depth + 1 := by
  simp [toJson, Json.depth, Json.depthMembers]

theorem Task.depth_toJson_le_iff {t : Task} {n : Nat} :
    t.toJson.depth ≤ n ↔ 2 ≤ n ∧ (∀ l ∈ t.facts, l.toJson.depth + 2 ≤ n) ∧
      ∀ e ∈ t.examples, e.toJson.depth + 2 ≤ n := by
  have hdepth : t.toJson.depth = max (Json.depthItems (t.facts.map Literal.toJson) + 2)
      (Json.depthItems (t.examples.map Example.toJson) + 2) := by
    simp [toJson, Json.depth, Json.depthMembers]
  rw [hdepth, Nat.max_le, Json.depthItems_add_le_iff, Json.depthItems_add_le_iff,
    List.forall_mem_map, List.forall_mem_map, ← and_and_left]

/-!
# Reading back
-/

namespace Literal

theorem plain_atomToJson (l : Literal) : l.atomToJson.Plain := by
  rw [atomToJson, Term.toJsonList_eq_map]
  refine .object (List.forall_mem_cons.mpr ⟨.string l.predicate, ?_⟩)
  by_cases hnil : l.args = []
  · rw [if_pos hnil]
    exact fun m hm => nomatch hm
  · rw [if_neg hnil]
    refine List.forall_mem_singleton.mpr (.array (List.forall_mem_map.mpr ?_))
    exact fun t ht => t.plain_toJson

theorem plain_toJson (l : Literal) : l.toJson.Plain := by
  refine .object (List.forall_mem_cons.mpr ⟨.bool _, List.forall_mem_singleton.mpr ?_⟩)
  exact l.plain_atomToJson

theorem reads_atomToJson {l : Literal} (h : l.Saturated) :
    Reader.Reads atomReader l.atomToJson (l.predicate, l.args) := by
  have hargs : Reader.Reads (.list Term.reader) (.array (l.args.map Term.toJson)) l.args :=
    Reader.reads_list fun t ht => Term.reads_toJson (h t ht)
  rw [atomToJson, Term.toJsonList_eq_map]
  by_cases hnil : l.args = []
  · rw [if_pos hnil, hnil]
    exact Reader.reads_record_first (Reader.reads_string l.predicate) rfl
  · rw [if_neg hnil]
    exact Reader.reads_record (by decide) (Reader.reads_string l.predicate) hargs rfl

theorem reads_toJson {l : Literal} (h : l.Saturated) : Reader.Reads reader l.toJson l :=
  Reader.reads_record (by decide) (Reader.reads_bool l.positive) (reads_atomToJson h) rfl

end Literal

theorem plain_literalsToJson (ls : List Literal) : (literalsToJson ls).Plain := by
  refine .object (List.forall_mem_singleton.mpr (.array (List.forall_mem_map.mpr ?_)))
  exact fun l hl => l.plain_toJson

theorem reads_literalsToJson {ls : List Literal} (h : ∀ l ∈ ls, l.Saturated) :
    Reader.Reads literalsReader (literalsToJson ls) ls :=
  Reader.reads_record_only (Reader.reads_list fun l hl => Literal.reads_toJson (h l hl)) rfl

theorem Example.plain_toJson (e : Example) : e.toJson.Plain := by
  refine .object (List.forall_mem_cons.mpr ⟨.bool _, List.forall_mem_singleton.mpr ?_⟩)
  exact plain_literalsToJson e.literals

theorem Example.reads_toJson {e : Example} (h : ∀ l ∈ e.literals, l.Saturated) :
    Reader.Reads reader e.toJson e :=
  Reader.reads_record (by decide) (Reader.reads_bool e.positive) (reads_literalsToJson h) rfl

namespace Task

theorem plain_toJson (t : Task) : t.toJson.Plain := by
  refine .object (List.forall_mem_cons.mpr ⟨.array ?_, List.forall_mem_singleton.mpr (.array ?_)⟩)
  · exact List.forall_mem_map.mpr fun l hl => l.plain_toJson
  · exact List.forall_mem_map.mpr fun e he => e.plain_toJson

theorem reads_toJson {t : Task} (h : t.Saturated) : Reader.Reads reader t.toJson t :=
  Reader.reads_record (by decide)
    (Reader.reads_list fun l hl => Literal.reads_toJson (h.left l hl))
    (Reader.reads_list fun e he => Example.reads_toJson (h.right e he)) rfl

theorem parse_write {t : Task} (h : t.Saturated) (hdepth : t.toJson.depth ≤ Json.maxDepth) :
    parse t.write = .ok t :=
  Reader.run_compact t.plain_toJson (reads_toJson h) hdepth

theorem load_write {t : Task} (h : t.Saturated) (hdepth : t.toJson.depth ≤ Json.maxDepth) :
    load (some t.write.toUTF8) = .ok t := by
  have hdecode : String.fromUTF8? t.write.toUTF8 = some t.write := by
    rw [String.fromUTF8?, String.toUTF8_eq_toByteArray, dif_pos t.write.isValidUTF8]
    rfl
  simp only [load, Option.bind_some, hdecode, parse_write h hdepth]

theorem exists_parse_of_load {contents : Option ByteArray} {t : Task}
    (h : load contents = .ok t) : ∃ text, parse text = .ok t := by
  rw [load] at h
  cases htext : contents.bind String.fromUTF8? with
  | none =>
      rw [htext] at h
      cases h
  | some text =>
      cases hparse : parse text with
      | error r =>
          simp only [htext, hparse] at h
          cases h
      | ok u =>
          simp only [htext, hparse] at h
          cases h
          exact ⟨text, hparse⟩

end Task

/-!
# What is read
-/

def Literal.Fits (room : Nat) (l : Literal) : Prop :=
  ∀ t ∈ l.args, t.Fits room

theorem Literal.Fits.saturated {room : Nat} {l : Literal} (h : l.Fits room) : l.Saturated :=
  fun t ht => (h t ht).left

theorem Literal.Fits.depth_toJson_le {room : Nat} {l : Literal} (h : l.Fits (room - 3))
    (hroom : 3 ≤ room) : l.toJson.depth ≤ room := by
  refine depth_toJson_le_iff.mpr ⟨Nat.le_of_succ_le hroom, fun t ht => ?_⟩
  exact Nat.add_le_of_le_sub hroom (h t ht).right

theorem Literal.ensures_atomReader (room : Nat) :
    Reader.Ensures atomReader room fun atom => ∀ t ∈ atom.2, t.Fits (room - 2) := by
  have hname : Reader.Ensures Reader.string (room - 1) fun _ => True := fun _ _ _ => trivial
  refine Reader.ensures_record_two hname (Reader.ensures_list (Term.ensures_reader _)) ?_
  intro d atom hatom hd
  rcases d with ⟨predicate, args⟩
  rcases Option.map_eq_some_iff.mp hatom with ⟨p, -, rfl⟩
  cases args with
  | none => exact fun t ht => nomatch ht
  | some args => exact hd.right args rfl

theorem Literal.ensures_reader (room : Nat) : Reader.Ensures reader room (Fits (room - 3)) := by
  have hsign : Reader.Ensures Reader.bool (room - 1) fun _ => True := fun _ _ _ => trivial
  refine Reader.ensures_record_two hsign (Literal.ensures_atomReader _) ?_
  intro d l hl hd
  rcases Option.bind_eq_some_iff.mp hl with ⟨positive, -, hmap⟩
  rcases Option.map_eq_some_iff.mp hmap with ⟨atom, hatom, rfl⟩
  have hfits := hd.right atom hatom
  rwa [Nat.sub_sub] at hfits

theorem ensures_literalsReader (room : Nat) :
    Reader.Ensures literalsReader room fun ls => ∀ l ∈ ls, l.Fits (room - 5) := by
  refine Reader.ensures_record_one (Reader.ensures_list (Literal.ensures_reader _)) ?_
  intro literals ls hls hd
  cases hls
  cases literals with
  | none => exact fun l hl => nomatch hl
  | some ls =>
      have hfits := hd ls rfl
      rwa [Nat.sub_sub, Nat.sub_sub] at hfits

theorem Example.ensures_reader (room : Nat) :
    Reader.Ensures reader room fun e => ∀ l ∈ e.literals, l.Fits (room - 6) := by
  have hlabel : Reader.Ensures Reader.bool (room - 1) fun _ => True := fun _ _ _ => trivial
  refine Reader.ensures_record_two hlabel (ensures_literalsReader _) ?_
  intro d e he hd
  rcases Option.bind_eq_some_iff.mp he with ⟨positive, -, hliterals⟩
  rcases Option.map_eq_some_iff.mp hliterals with ⟨ls, hls, rfl⟩
  have hfits := hd.right ls hls
  rwa [Nat.sub_sub] at hfits

namespace Task

/-- The arguments of facts and of samples fit into what is left of a number of levels where they
stand in a document. -/
def Fits (room : Nat) (t : Task) : Prop :=
  (∀ l ∈ t.facts, l.Fits (room - 5)) ∧ ∀ e ∈ t.examples, ∀ l ∈ e.literals, l.Fits (room - 8)

theorem ensures_reader (room : Nat) : Reader.Ensures reader room (Fits room) := by
  refine Reader.ensures_record_two (Reader.ensures_list (Literal.ensures_reader _))
    (Reader.ensures_list (Example.ensures_reader _)) ?_
  intro d t ht hd
  rcases d with ⟨facts, examples⟩
  rcases Option.map_eq_some_iff.mp ht with ⟨es, hes, rfl⟩
  have hexamples := hd.right es hes
  rw [Nat.sub_sub, Nat.sub_sub] at hexamples
  refine ⟨?_, hexamples⟩
  cases facts with
  | none => exact fun l hl => nomatch hl
  | some facts =>
      have hfacts := hd.left facts rfl
      rwa [Nat.sub_sub, Nat.sub_sub] at hfacts

theorem fits_of_parse {text : String} {t : Task} (h : parse text = .ok t) : t.Fits Json.maxDepth :=
  (ensures_reader Json.maxDepth).of_run h

theorem Fits.saturated {room : Nat} {t : Task} (h : t.Fits room) : t.Saturated :=
  ⟨fun l hl => (h.left l hl).saturated, fun e he l hl => (h.right e he l hl).saturated⟩

theorem Fits.depth_toJson_le {room : Nat} {t : Task} (h : t.Fits room) (hroom : 8 ≤ room) :
    t.toJson.depth ≤ room := by
  refine depth_toJson_le_iff.mpr ⟨by omega, fun l hl => ?_, fun e he => ?_⟩
  · have hfits : l.Fits (room - 2 - 3) := h.left l hl
    have hdepth := hfits.depth_toJson_le (by omega)
    omega
  · have he' : (literalsToJson e.literals).depth ≤ room - 3 := by
      refine depth_literalsToJson_le_iff.mpr ⟨by omega, fun l hl => ?_⟩
      have hfits : l.Fits (room - 5 - 3) := h.right e he l hl
      have hdepth := hfits.depth_toJson_le (by omega)
      omega
    rw [e.depth_toJson]
    omega

/-- The document of a task is read back as the same task if and only if every symbol is applied to
as many arguments as it is declared for, which documents do not say, and arrays and objects are not
nested deeper than readers go. -/
theorem parse_write_iff (t : Task) :
    parse t.write = .ok t ↔ t.Saturated ∧ t.toJson.depth ≤ Json.maxDepth := by
  constructor
  · intro h
    have hfits := fits_of_parse h
    exact ⟨hfits.saturated, hfits.depth_toJson_le (by decide)⟩
  · intro h
    exact parse_write h.left h.right

end Task

end ClauseInduction
