import ClauseInduction.Report
import ClauseInduction.Proofs.Learner.Document

/-!
# Documents of reports

The JSON text of a report is read back as the value that it was written from, and the members of
that value tell the whole report: the hypothesis with its literals in order, its written form, how
many samples there were and how many of them changed the hypothesis.
-/

namespace ClauseInduction

open Json (Reader Scanned)

def Json.member? (key : String) : Json → Option Json
  | .object members => members.lookup key
  | _ => none

def Json.count? : Json → Option Nat
  | .number n => n.toNat?
  | _ => none

theorem Clause.Fits.saturated {room : Nat} {C : Clause} (h : C.Fits room) : C.Saturated :=
  fun l hl => (h l hl).saturated

theorem Clause.Fits.depth_toJson_le {room : Nat} {C : Clause} (h : C.Fits room) :
    C.toJson.depth ≤ room + 5 := by
  refine depth_literalsToJson_le_iff.mpr ⟨by omega, fun l hl => ?_⟩
  have hl' : l.Fits (room + 3 - 3) := h l hl
  have hdepth := hl'.depth_toJson_le (by omega)
  omega

namespace Report

/-- The value tells the report by the names of its members.  Where there is no hypothesis, the
written form of one is missing and the hypothesis is null. -/
structure ToldBy (r : Report) (v : Json) : Prop where
  samples : (v.member? "samples").bind Json.count? = some r.outcomes.length
  changes : (v.member? "changes").bind Json.count? = some (r.outcomes.countP Outcome.changes)
  text : v.member? "text" = r.hypothesis.map fun H => .string H.text
  nothing : r.hypothesis = none → v.member? "hypothesis" = some .null
  literals : ∀ H, r.hypothesis = some H → ∃ w, v.member? "hypothesis" = some w ∧
    literalsReader (Json.maxDepth - 1) w.tree = .ok H.literals

theorem plain_toJson {r : Report} (h : r.outcomes.length < Nat.pow 2 64) : r.toJson.Plain := by
  have hchanges : r.changeCount < Nat.pow 2 64 := Nat.lt_of_le_of_lt List.countP_le_length h
  refine .object (List.forall_mem_append.mpr ⟨?_, ?_⟩)
  · cases r.hypothesis with
    | none => exact List.forall_mem_singleton.mpr .null
    | some H =>
        refine List.forall_mem_cons.mpr ⟨plain_literalsToJson H.literals, ?_⟩
        exact List.forall_mem_singleton.mpr (.string H.text)
  · exact List.forall_mem_cons.mpr ⟨.count h, List.forall_mem_singleton.mpr (.count hchanges)⟩

theorem depth_toJson_le {r : Report} {room : Nat} (hroom : 1 ≤ room)
    (h : ∀ H, r.hypothesis = some H → H.toJson.depth + 1 ≤ room) : r.toJson.depth ≤ room := by
  refine Json.depth_object_le_iff.mpr ⟨room - 1, by omega, List.forall_mem_append.mpr ⟨?_, ?_⟩⟩
  · cases hH : r.hypothesis with
    | none => exact List.forall_mem_singleton.mpr (Nat.zero_le _)
    | some H =>
        have hdepth := h H hH
        refine List.forall_mem_cons.mpr ⟨Nat.le_sub_of_add_le hdepth, ?_⟩
        exact List.forall_mem_singleton.mpr (Nat.zero_le _)
  · refine List.forall_mem_cons.mpr ⟨Nat.zero_le _, List.forall_mem_singleton.mpr (Nat.zero_le _)⟩

theorem toldBy_toJson {r : Report} (h : ∀ H, r.hypothesis = some H → H.Fits (Json.maxDepth - 6)) :
    r.ToldBy r.toJson := by
  rcases r with ⟨_ | H, outcomes⟩
  · refine ⟨?_, ?_, rfl, fun _ => rfl, nofun⟩
    · exact Json.Numeral.toNat?_ofNat _
    · exact Json.Numeral.toNat?_ofNat _
  · refine ⟨?_, ?_, rfl, nofun, ?_⟩
    · exact Json.Numeral.toNat?_ofNat _
    · exact Json.Numeral.toNat?_ofNat _
    · intro K hK
      cases hK
      have hfits := h H rfl
      exact ⟨H.toJson, rfl, reads_literalsToJson hfits.saturated _ hfits.depth_toJson_le⟩

/-- A report whose counts have 64 bits and whose hypothesis is not nested too deeply is told by its
printed JSON text. -/
theorem exists_toldBy_of_pretty {r : Report} (hcount : r.outcomes.length < Nat.pow 2 64)
    (h : ∀ H, r.hypothesis = some H → H.Fits (Json.maxDepth - 6)) :
    ∃ v, Reader.run Scanned.value (r.toJson.pretty ++ "\n") = .ok v ∧ r.ToldBy v := by
  have hplain := plain_toJson hcount
  have hdepth : r.toJson.depth ≤ Json.maxDepth :=
    depth_toJson_le (by decide) fun H hH => Nat.succ_le_succ (h H hH).depth_toJson_le
  exact ⟨r.toJson, Reader.run_pretty hplain (Reader.reads_value hplain) hdepth, toldBy_toJson h⟩

end Report

end ClauseInduction
