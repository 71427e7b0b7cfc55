import Interleave.SavedTrace
import Interleave.Trace.Step
import Interleave.Proofs.Json.Reading
import Interleave.Proofs.Json.Records

/-!
# Interleave.Proofs.Trace.Persistence

A saved trace is the trace. Each choice is read back from its record, whatever stands in the name
of a fair choice and whatever the integer; a record passes through a buffer on the way, and all
that the four forms of records hold can be held there.

* `Choice.ofJson?_toJson`, `Trace.ofJson?_toJson`: records and lists of them.
* `SavedTrace.read_write`: files, through their text.
* `SavedTrace.recording_persists`: traces as they are recorded, choice by choice.
-/

namespace Interleave
namespace Choice

/-- The kind of a record is told from the fields beside it. -/
theorem split?_record {kind : String} {beside : List (String × Json)}
    (hnodup : ("type" :: beside.map (·.1)).Nodup) :
    split? (.record (("type", .text kind) :: beside)) = some (kind, .record beside) := by
  have hnames : ((("type", Json.text kind) :: beside).map (·.1)).Nodup := hnodup
  have hvalues := Json.Fields.valuesOf_record hnames List.mem_cons_self
  have hkept : ∀ field ∈ beside, field.1 ≠ "type" := by
    rintro field hfield heq
    exact (List.nodup_cons.1 hnodup).1 (List.mem_map.2 ⟨field, hfield, heq⟩)
  have hbeside : (beside.map fun field => ((some field.1 : Content), field.2)).filter
      (fun field => field.1 != some "type") = beside.map fun field => (some field.1, field.2) := by
    refine List.filter_eq_self.2 fun field hfield => ?_
    obtain ⟨written, hwritten, rfl⟩ := List.mem_map.1 hfield
    simpa using hkept written hwritten
  rw [List.map_cons] at hvalues
  rw [Json.record, List.map_cons, split?, hvalues]
  simp [Json.text, Json.record, hbeside]

theorem ofJson?_record {kind : String} {beside : List (String × Json)} {levels : Nat}
    (hlevels : 0 < levels) (hnodup : ("type" :: beside.map (·.1)).Nodup)
    (hreadable : ∀ field ∈ beside, field.2.isReadable (levels - 1) = true) :
    ofJson? levels (.record (("type", .text kind) :: beside)) =
      ofFields? kind (.record beside) := by
  simp [ofJson?, split?_record hnodup, Json.isReadable_record hlevels hreadable]

/-- A record nests one level deep. -/
theorem ofJson?_toJson (c : Choice) {levels : Nat} (hlevels : 0 < levels) :
    ofJson? levels c.toJson = some c := by
  cases c with
  | unit u =>
    rw [toJson, ofJson?_record hlevels (by simp) (by simp [UnitId.toJson]), ofFields?,
      Json.Fields.of?_record (by simp) (by simp)]
    simp [Json.Fields.required, Json.Fields.get?, UnitId.toJson, UnitId.ofJson?]
  | boolean b =>
    rw [toJson, ofJson?_record hlevels (by simp) (by simp), ofFields?,
      Json.Fields.of?_record (by simp) (by simp)]
    simp [Json.Fields.required, Json.Fields.get?]
  | fairBoolean id b =>
    rw [toJson, ofJson?_record hlevels (by simp) (by simp), ofFields?,
      Json.Fields.of?_record (by simp) (by simp)]
    simp [Json.Fields.required, Json.Fields.get?, List.lookup_cons]
  | integer n =>
    rw [toJson, ofJson?_record hlevels (by simp) (by simp), ofFields?,
      Json.Fields.of?_record (by simp) (by simp)]
    simp [Json.Fields.required, Json.Fields.get?]

end Choice

namespace Trace

theorem ofJson?_toJson (t : Trace) {outside : Nat} (houtside : outside < maxLevels - 1) :
    ofJson? outside t.toJson = some t := by
  have hread : (t.toList.map Choice.toJson).mapM (Choice.ofJson? (maxLevels - 1 - outside)) =
      some t.toList := by
    have hlevels : 0 < maxLevels - 1 - outside := Nat.sub_pos_of_lt houtside
    rw [List.mapM_map]
    exact (mapM_eq_some_map fun c _ => Choice.ofJson?_toJson c hlevels).trans
      (congrArg some t.toList.map_id)
  rw [ofJson?, toJson, Json.list?, Json.items?, Option.bind_some, hread]
  simp [ofList, toList]

theorem toList_foldl_push (cs : List Choice) (t : Trace) :
    (cs.foldl push t).toList = t.toList ++ cs := by
  induction cs generalizing t with
  | nil => simp
  | cons c cs ih => rw [List.foldl_cons, ih, toList_push, List.append_assoc, List.singleton_append]

/-- A list of records is a trace, step by step, and the trace records it. -/
theorem map_choice_steps_ofList (cs : List Choice) : (ofList cs).steps.map Step.choice = cs := by
  rw [map_choice_steps]
  simp [ofList, toList]

end Trace

namespace SavedTrace

theorem ofJson?_toJson (s : SavedTrace) : ofJson? s.toJson = some s := by
  have hversion := Json.natBelow?_nat s.version.toNat_lt_size
  have houtside : 1 < maxLevels - 1 := by decide
  rw [ofJson?, toJson, Json.Fields.of?_record (by simp) (by simp)]
  simp [Json.Fields.required, Json.Fields.get?, List.lookup_cons, hversion,
    Trace.ofJson?_toJson s.trace houtside]

theorem read_write (s : SavedTrace) :
    read s.write =
      if s.version = currentVersion then .ok s else .error (.unsupported s.version) := by
  rw [read, write, Json.read?_pretty, Option.bind_some, ofJson?_toJson]

/-- Record any choices one after the other, save the trace, and read the text back: the file is
the one that was written, and its trace has the recorded steps, each with its place and its name,
in either form. Any list of records is the record of the trace that it makes. -/
theorem recording_persists (cs : List Choice) (fair : Bool) :
    let recorded := cs.foldl Trace.push .empty
    let saved := ofTrace recorded fair
    (∃ loaded, read saved.write = .ok loaded ∧ loaded = saved ∧ loaded.fair = fair ∧
      loaded.trace = recorded ∧ loaded.trace.steps = cs.mapIdx Trace.Step.ofChoice) ∧
    saved.trace.toList = recorded.steps.map Trace.Step.choice ∧
    (Trace.ofList cs).steps = cs.mapIdx Trace.Step.ofChoice ∧
    (Trace.ofList cs).steps.map Trace.Step.choice = cs := by
  intro recorded saved
  have hrecorded : recorded.toList = cs := Trace.toList_foldl_push cs .empty
  have hread : read saved.write = .ok saved := by rw [read_write]; rfl
  refine ⟨⟨saved, hread, rfl, rfl, rfl, ?_⟩, (Trace.map_choice_steps recorded).symm, ?_,
    Trace.map_choice_steps_ofList cs⟩
  · show recorded.toList.mapIdx _ = _
    rw [hrecorded]
  · simp [Trace.steps, Trace.ofList, Trace.toList]

end SavedTrace
end Interleave
