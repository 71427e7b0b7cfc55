import Interleave.Configuration.Document
import Interleave.Proofs.Json.Reading
import Interleave.Proofs.Json.Records

/-!
# Interleave.Proofs.Configuration.Persistence

A configuration is read back from its document, and from any part of it: the fields that a document
shows are taken from there, in whatever order and among whatever other fields they stand, and the
rest have their defaults. Only then the configuration is checked.

* `Duration.ofJson?_toJson`, `StrategyKind.ofName?_name`: the parts that have a form of their own.
* `Configuration.ofJson?_excerpt`: documents with some of the fields.
* `Configuration.documents_read_back`: texts, the written one and any that spells such a document.
-/

namespace Interleave

theorem Json.nullable?_orNull {α : Type} {write : α → Json} {read : Json → Option α}
    (hread : ∀ a, read (write a) = some a) (hnull : read .null = none) (o : Option α) :
    (Json.orNull write o).nullable? read = some o := by
  cases o with
  | none => rfl
  | some a =>
    have ha := hread a
    rw [Json.orNull, Json.nullable?.eq_def]
    split
    case h_1 heq =>
      rw [heq, hnull] at ha
      cases ha
    case h_2 => rw [ha]; rfl

theorem Duration.fraction_val (n : Fin 1000000000) : fraction n = n :=
  Fin.ofNat_val_eq_self n

theorem Duration.ofJson?_toJson (t : Duration) : ofJson? t.toJson = some t := by
  have hseconds := Json.natBelow?_nat t.seconds.toNat_lt_size
  have hnanoseconds : (Json.nat t.nanoseconds).natBelow? UInt32.size = some t.nanoseconds.val :=
    Json.natBelow?_nat (Nat.lt_trans t.nanoseconds.isLt (by decide))
  have hparts : ofParts? t.seconds.toNat t.nanoseconds = some t := by
    have hcarry : t.nanoseconds.val / 1000000000 = 0 := Nat.div_eq_of_lt t.nanoseconds.isLt
    simp only [ofParts?, hcarry, Nat.add_zero, if_pos t.seconds.toNat_lt_size, UInt64.ofNat_toNat,
      fraction_val]
  rw [ofJson?, toJson, if_pos (by rfl), Json.Fields.of?_record (by simp) (by simp)]
  simp [Json.Fields.required, Json.Fields.get?, List.lookup_cons, Json.word, hseconds,
    hnanoseconds, hparts]

theorem StrategyKind.ofName?_name (k : StrategyKind) : ofName? k.name = some k := by
  cases k <;> rfl

namespace Configuration

/-- Where the field of a name comes from: the configuration itself, if the name is shown. -/
def origin (shown : List String) (c : Configuration) (name : String) : Configuration :=
  if name ∈ shown then c else {}

/-- A configuration with the shown fields of the given one and the default in all others. -/
def keep (shown : List String) (c : Configuration) : Configuration where
  iterations := (c.origin shown "scheduling_iterations").iterations
  unfairStepBound := (c.origin shown "max_unfair_scheduling_steps").unfairStepBound
  fairStepBound := (c.origin shown "max_fair_scheduling_steps").fairStepBound
  temperatureThreshold := (c.origin shown "liveness_temperature_threshold").temperatureThreshold
  seed := (c.origin shown "random_seed").seed
  safetyPrefix := (c.origin shown "safety_prefix_bound").safetyPrefix
  detectCycles := (c.origin shown "enable_cycle_detection").detectCycles
  debugging := (c.origin shown "enable_debugging").debugging
  timeout := (c.origin shown "timeout").timeout
  randomWalks := (c.origin shown "max_random_walks").randomWalks
  workers := (c.origin shown "parallel_workers").workers
  strategy := (c.origin shown "strategy").strategy
  attachTraces := (c.origin shown "attach_bug_trace").attachTraces

theorem map_fst_fields (c : Configuration) : c.fields.map (·.1) = fieldNames := rfl

theorem keep_fieldNames (c : Configuration) : c.keep fieldNames = c := rfl

variable {c : Configuration} {f : Json.Fields} {shown : List String}

/-- One field, by what it is written as and how that is read. -/
theorem withDefault_origin {α : Type} {name : String} {value : Json} {read : Json → Option α}
    (part : Configuration → α) (hvalue : f.get? name = if name ∈ shown then some value else none)
    (hread : read value = some (part c)) :
    f.withDefault name read (part {}) = some (part (c.origin shown name)) := by
  rw [origin]
  split at hvalue
  case isTrue hshown => rw [if_pos hshown, Json.Fields.withDefault, hvalue]; exact hread
  case isFalse hhidden => rw [if_neg hhidden, Json.Fields.withDefault, hvalue]

/-- A document that shows some fields of a configuration describes what these leave of it. -/
theorem ofJson?_excerpt {chosen document : List (String × Json)}
    (h : Json.Fields.Excerpt c.fields chosen document) :
    ofJson? (.record document) = some (c.keep (chosen.map (·.1))) := by
  have hnodup : (c.fields.map (·.1)).Nodup := by rw [map_fst_fields]; decide
  obtain ⟨f, hf, hget⟩ := Json.Fields.of?_excerpt h hnodup
  rw [map_fst_fields] at hf
  have hpart {α : Type} {name : String} {value : Json} {read : Json → Option α}
      {next : α → Option Configuration} {result : Configuration} (part : Configuration → α)
      (hfield : (name, value) ∈ c.fields) (hread : read value = some (part c))
      (hnext : next (part (c.origin (chosen.map (·.1)) name)) = some result) :
      (f.withDefault name read (part {}) >>= next) = some result :=
    Option.bind_eq_some_iff.2 ⟨_, withDefault_origin part (hget name value hfield) hread, hnext⟩
  have hseed := Json.nullable?_orNull Json.word?_word rfl c.seed
  have htimeout := Json.nullable?_orNull Duration.ofJson?_toJson rfl c.timeout
  have hstrategy : (Json.text c.strategy.name).alternative?.bind StrategyKind.ofName? =
      some c.strategy := StrategyKind.ofName?_name c.strategy
  refine Option.bind_eq_some_iff.2 ⟨f, hf, ?_⟩
  refine hpart (·.iterations) (by simp [fields]) (Json.word?_word _) ?_
  refine hpart (·.unfairStepBound) (by simp [fields]) (Json.word?_word _) ?_
  refine hpart (·.fairStepBound) (by simp [fields]) (Json.word?_word _) ?_
  refine hpart (·.temperatureThreshold) (by simp [fields]) (Json.word?_word _) ?_
  refine hpart (·.seed) (by simp [fields]) hseed ?_
  refine hpart (·.safetyPrefix) (by simp [fields]) (Json.word?_word _) ?_
  refine hpart (·.detectCycles) (by simp [fields]) (Json.bool?_bool _) ?_
  refine hpart (·.debugging) (by simp [fields]) (Json.bool?_bool _) ?_
  refine hpart (·.timeout) (by simp [fields]) htimeout ?_
  refine hpart (·.randomWalks) (by simp [fields]) (Json.word?_word _) ?_
  refine hpart (·.workers) (by simp [fields]) (Json.word?_word _) ?_
  refine hpart (·.strategy) (by simp [fields]) hstrategy ?_
  refine hpart (·.attachTraces) (by simp [fields]) (Json.bool?_bool _) ?_
  rfl

/-- The text that a configuration is written as is read back, and checked. So is any text that
spells a document with some of its fields, in any order and among fields of other names: they are
read as they are in the configuration, and the fields left out have their defaults. -/
theorem documents_read_back (c : Configuration) :
    (read c.write = c.check.map fun _ => c) ∧
    ∀ (chosen document : List (String × Json)) (text : String),
      Json.Fields.Excerpt c.fields chosen document →
      Json.read? text = some (.record document) →
      read text = (c.keep (chosen.map (·.1))).check.map fun _ => c.keep (chosen.map (·.1)) := by
  have hspelled {chosen document : List (String × Json)} {text : String}
      (h : Json.Fields.Excerpt c.fields chosen document)
      (htext : Json.read? text = some (.record document)) :
      read text = (c.keep (chosen.map (·.1))).check.map fun _ => c.keep (chosen.map (·.1)) := by
    rw [read, htext, Option.bind_some, ofJson?_excerpt h]
  refine ⟨?_, fun chosen document text => hspelled⟩
  have hwritten : read c.write = _ := hspelled (.refl c.fields) (Json.read?_pretty c.toJson)
  rwa [map_fst_fields, keep_fieldNames] at hwritten

/-- Half a minute of a search that detects cycles. -/
def halfMinute : Configuration :=
  { iterations := 20, detectCycles := true, strategy := .partialOrder,
    timeout := some (.ofMilliseconds 30000) }

/-- Two of the fields, the other way round, before two of a name that no field has. -/
theorem halfMinute_excerpt_read :
    let document : List (String × Json) :=
      [("strategy", .text "dpor"), ("scheduling_iterations", .nat 20), ("comment", .null),
        ("comment", .array [])]
    halfMinute.check = .ok () ∧ read halfMinute.write = .ok halfMinute ∧
      read (Json.record document).pretty = .ok { iterations := 20, strategy := .partialOrder } := by
  intro document
  obtain ⟨hwhole, hparts⟩ := documents_read_back halfMinute
  have hexcerpt : Json.Fields.Excerpt halfMinute.fields
      [("scheduling_iterations", .nat 20), ("strategy", .text "dpor")] document :=
    ⟨.cons_cons _ (List.singleton_sublist.2 (List.mem_of_getElem? (i := 10) rfl)),
      [("comment", .null), ("comment", .array [])], by decide, .swap _ _ _⟩
  exact ⟨rfl, hwhole, hparts _ _ _ hexcerpt (Json.read?_pretty _)⟩

end Configuration
end Interleave
