import Interleave.Proofs.Liveness.Chase

/-!
# Interleave.Proofs.Liveness.Lasso

Why a confirmed liveness violation is one. `Lasso` says what its trace shows: the way to a cycle,
the cycle, and its repetition up to the threshold.

* `lasso_of_tracks`: the trace of a chase that has reached its threshold is a lasso.
* `ne_liveness_of_isBase`: only the liveness check reports a liveness violation.
* `liveness_violation_lasso`: a violation found by a chase that was begun in this run is shown by
  the trace.
-/

namespace Interleave

section Chases

variable {threshold : Nat}

/-- A trace that shows a violation: it leads to a cycle, goes round it once, and then repeats it
until the threshold is reached. The photographs are found by step. -/
structure Lasso (threshold : Nat) (trace : Trace) (observer : Observer) (v : Violation)
    (stem cycle rest : List Choice) : Prop where
  trace_eq : trace.toList = stem ++ cycle ++ rest
  stem_ne : stem ≠ []
  cycle_ne : cycle ≠ []
  known : ∀ i, stem.length ≤ i → i < trace.length → (observer.snapshotAt? i).isSome = true
  closes : ∃ before after, observer.snapshotAt? (stem.length - 1) = some before ∧
    observer.snapshotAt? (stem.length + cycle.length - 1) = some after ∧
    before.fingerprint = after.fingerprint
  /-- The units enabled in the states of the cycle are those that it schedules. -/
  schedulingFair : ∀ u, (∃ i state, i < cycle.length ∧
      observer.snapshotAt? (stem.length + i) = some state ∧ state.enabled.contains u = true) ↔
    .unit u ∈ cycle
  choiceFair : ∀ id value, .fairBoolean id value ∈ cycle → .fairBoolean id (!value) ∈ cycle
  monitors_ne : v.monitors ≠ []
  mem_monitors_iff : ∀ name, name ∈ v.monitors ↔ ∀ i state, i < cycle.length →
    observer.snapshotAt? (stem.length + i) = some state → (state.heatOf name).isHot = true
  cycleLength_eq : v.cycleLength = cycle.length
  temperature_eq : v.temperature = if threshold = 0 then 10 * cycle.length else threshold
  length_rest : rest.length = v.temperature - 1
  repeats : ∀ i choice, rest[i]? = some choice → ∃ original,
    cycle[i % cycle.length]? = some original ∧ choice.payload = original.payload
  onCycle : ∀ i state, stem.length + cycle.length ≤ i → i < trace.length →
    observer.snapshotAt? i = some state → ∃ j state', j < cycle.length ∧
      observer.snapshotAt? (stem.length + j) = some state' ∧
      state'.fingerprint = state.fingerprint
  warm : ∀ i state, stem.length + cycle.length ≤ i + 1 → i < trace.length →
    observer.snapshotAt? i = some state → ∀ name ∈ v.monitors, (state.heatOf name).isCold = false

theorem Window.choices_eq {trace : Trace} {observer : Observer} {start : Nat} {c : Cycle}
    (h : Window trace observer start c) :
    (trace.toList.drop start).take c.length = c.map (·.choice) := by
  refine List.ext_getElem? fun i => ?_
  rcases Nat.lt_or_ge i c.length with hi | hi
  · obtain ⟨choice, state, hc, hchoice, _⟩ := h.step i hi
    rw [List.getElem?_take_of_lt hi, List.getElem?_drop, ← Trace.get?_eq_getElem?_toList, hchoice,
      List.getElem?_map, hc]
    rfl
  · rw [List.getElem?_eq_none (by rw [List.length_take]; omega),
      List.getElem?_eq_none (by rw [List.length_map]; exact hi)]

theorem lasso_of_tracks {trace : Trace} {o : Observer} {start checks : Nat} {c : Chase}
    (h : c.Tracks threshold trace o start (checks + 1))
    (hlength : trace.length = start + c.cycle.length + checks) (hhot : c.temperature = c.threshold)
    (hknown : ∀ i, start ≤ i → i < trace.length → (o.snapshotAt? i).isSome = true) :
    Lasso threshold trace o c.violation (trace.toList.take start) (c.cycle.map (·.choice))
      (trace.toList.drop (start + c.cycle.length)) := by
  have hpos := h.window.length_pos
  have hne : c.cycle ≠ [] := List.ne_nil_of_length_pos hpos
  have hstem : (trace.toList.take start).length = start := by
    rw [List.length_take, Trace.length_toList]
    omega
  have hcycle : (c.cycle.map (·.choice)).length = c.cycle.length := List.length_map _
  have hfair : c.cycle.isSchedulingFair = true ∧ c.cycle.isChoiceFair = true := by
    simpa [Cycle.isFair] using h.fair
  constructor
  · rw [← h.window.choices_eq, List.append_assoc, ← List.drop_drop, List.take_append_drop,
      List.take_append_drop]
  · intro hnil
    rw [hnil] at hstem
    have hstart := h.window.start_pos
    simp at hstem
    omega
  · simpa using hne
  · rw [hstem]
    exact hknown
  · rw [hstem, hcycle]
    exact h.window.closes
  · intro u
    rw [hstem, hcycle, List.mem_map, ← Cycle.enabled_iff_of_isSchedulingFair hfair.1 u]
    exact (h.window.exists_state_iff fun state => state.enabled.contains u = true).symm
  · intro id value hmem
    obtain ⟨step, hstep, hchoice⟩ := List.mem_map.1 hmem
    obtain ⟨other, hother, heq⟩ := Cycle.takes_of_isChoiceFair hfair.2 hstep hchoice
    exact List.mem_map.2 ⟨other, hother, heq⟩
  · exact h.hot_ne
  · intro name
    show name ∈ c.hot ↔ _
    rw [hstem, hcycle, h.hot_eq, Cycle.mem_hotMonitors_iff hne]
    exact h.window.forall_state_iff fun state => (state.heatOf name).isHot = true
  · exact hcycle.symm
  · rw [hcycle]
    exact hhot.trans h.threshold_eq
  · show _ = c.temperature - 1
    rw [List.length_drop, Trace.length_toList, h.temperature_eq]
    omega
  · intro i choice hchoice
    rw [List.getElem?_drop, ← Trace.get?_eq_getElem?_toList] at hchoice
    obtain ⟨step, hstep, hpayload⟩ := h.repeats i choice hchoice
    exact ⟨step.choice, by rw [hcycle, List.getElem?_map, hstep]; rfl, hpayload⟩
  · intro i state hle hlt hstate
    rw [hstem, hcycle] at hle ⊢
    exact (h.window.exists_state_iff _).1
      (Cycle.visits_iff.1 (h.visited i state hle (by omega) hstate))
  · intro i state hle hlt hstate
    rw [hstem, hcycle] at hle
    exact h.warm i state hle (by omega) hstate

end Chases

section Bases

theorem visit_ne_liveness {s : DepthFirst} {alternatives : Alternatives} {v : Violation} :
    (s.visit alternatives).1 ≠ .error (.liveness v) := by
  unfold DepthFirst.visit
  split
  · simp
  · split <;> simp

theorem visitUnit_ne_liveness {s : PartialOrder} {candidates : List Candidate} {v : Violation} :
    (s.visitUnit candidates).1 ≠ .error (.liveness v) := by
  unfold PartialOrder.visitUnit
  repeat' split
  all_goals simp

theorem visitValue_ne_liveness {s : PartialOrder} {count : UInt64} {v : Violation} :
    (s.visitValue count).1 ≠ .error (.liveness v) := by
  unfold PartialOrder.visitValue
  repeat' split
  all_goals simp

theorem map_ne_error {α β : Type} {result : Except Refusal α} {f : α → β} {refusal : Refusal}
    (h : result ≠ .error refusal) : result.map f ≠ .error refusal := by
  cases result with
  | ok value => simp [Except.map]
  | error other => simpa [Except.map] using h

theorem ne_liveness_of_isBase {p : Plan} (hp : p.IsBase) (r : Request) (scene : Scene)
    (s : p.State) (v : Violation) :
    (p.strategy.answer r scene s).result ≠ .error (.liveness v) := by
  cases p with
  | random =>
    show (RandomWalk.reply r s).1 ≠ _
    cases r with
    | unit => simp only [RandomWalk.reply]; split <;> simp
    | boolean => simp [RandomWalk.reply]
    | integer => simp [RandomWalk.reply]
  | depthFirst =>
    show (DepthFirst.reply r s).1 ≠ _
    cases r with
    | unit =>
      simp only [DepthFirst.reply]
      split
      · simp
      · exact map_ne_error visit_ne_liveness
    | boolean => exact map_ne_error visit_ne_liveness
    | integer => exact map_ne_error visit_ne_liveness
  | partialOrder =>
    show (PartialOrder.reply r s).1 ≠ _
    cases r with
    | unit => exact visitUnit_ne_liveness
    | boolean => exact map_ne_error visitValue_ne_liveness
    | integer => exact visitValue_ne_liveness
  | replay =>
    show (Replay.reply r s).1 ≠ _
    unfold Replay.reply
    repeat' split
    all_goals simp
  | watch => exact hp.elim
  | scripted => exact hp.elim
  | transition => exact hp.elim
  | wholeTrace => exact hp.elim

end Bases

/-- A liveness violation that is reported for a chase begun in this run is shown by its trace, and
from the end of the cycle on no state check has found a monitor of the violation cold. -/
theorem liveness_violation_lasso {σ : Type} {P : Program σ} {p : Plan} (hp : p.IsBase)
    {config : Configuration} {drawn : UInt64} {start : (config.watching drawn p).State}
    (hstart : (config.watching drawn p).strategy.Reaches (config.watching drawn p).start start)
    {n : Nat} {a : Pause σ (config.watching drawn p).State} {v : Violation}
    (ha : P.pauseAt (config.watching drawn p).strategy start n = some a)
    (hv : (a.answer (config.watching drawn p).strategy P).result = .error (.liveness v))
    {m : Nat} {b : Pause σ (config.watching drawn p).State} (hm : m ≤ n)
    (hb : P.pauseAt (config.watching drawn p).strategy start m = some b)
    (hentry : b.session.strategy.detector.chase = none) :
    ∃ stem cycle rest, Lasso config.temperatureThreshold.toNat a.session.trace
        (a.answer (config.watching drawn p).strategy P).observer v stem cycle rest ∧
      ∀ k c, stem.length + cycle.length ≤ k → k ≤ n →
        P.pauseAt (config.watching drawn p).strategy start k = some c →
        ∀ name ∈ v.monitors, (c.session.observer.heatOf name).isCold = false := by
  obtain ⟨Inv, hS, hfresh⟩ := p.conforms hp.isComposed
  have hblind := isBlind_of_isBase hp
  have hbase : Inv start.base := (watched_conforms hS).of_reaches hfresh hstart
  have hthreshold : start.detector.threshold = config.temperatureThreshold.toNat :=
    (reaches_settings hstart).2
  have hwatching := watching_pauseAt hS hblind hbase ha
  obtain ⟨later, rfl⟩ := Nat.exists_eq_add_of_le hm
  have htrack := onTrack_pauseAt hS hblind hbase hb hentry later a ha
  rw [hthreshold] at hwatching htrack
  have hlooks := looks hwatching
  have hobserver := answer_observer (P := P) hblind a
  have hanswer : WatchedAnswer p.strategy (a.place.request P) a.session.scene a.session.strategy
      (a.answer (config.watching drawn p).strategy P) := watched_answer _ _ _ _
  have hphotograph : ∀ i state c, P.pauseAt (config.watching drawn p).strategy start (i + 1) =
      some c → i + 1 ≤ m + later →
      (a.answer (config.watching drawn p).strategy P).observer.snapshotAt? i = some state →
      state = c.session.photo := by
    intro i state c hc hle hstate
    obtain ⟨rest, hrest⟩ := Nat.exists_eq_add_of_le hle
    exact photograph_pauseAt hS hblind hbase hc rest a (by rw [← hrest]; exact ha) hstate
  have hlength := length_trace_pauseAt ha
  generalize a.answer (config.watching drawn p).strategy P = answer at hanswer hv hphotograph ⊢
  cases hanswer with
  | followed => cases hv
  | forwarded => exact absurd hv (ne_liveness_of_isBase hp _ _ _ v)
  | @confirmed w d o hfinding =>
    have hlooks : Looks _ _ a.session _ (some w, d, o) := hfinding ▸ hlooks
    cases hv
    obtain ⟨c, first, checks, rfl, htracks, hcount, hhot⟩ :=
      (looks_onTrack hwatching htrack hlooks).2 v rfl
    have hknown : ∀ i, first ≤ i → i < a.session.trace.length →
        (o.snapshotAt? i).isSome = true := by
      intro i hi hi'
      obtain ⟨before, _, hbefore, _, _⟩ := htracks.window.closes
      have hbefore' := (hlooks.known hwatching (first - 1)).1 (by rw [hbefore]; rfl)
      have hpos := htracks.window.start_pos
      exact (hlooks.known hwatching i).2 ⟨hi', by omega⟩
    have hlasso := lasso_of_tracks htracks hcount hhot hknown
    refine ⟨_, _, _, hlasso, fun k b hk hk' hb name hname => ?_⟩
    have hstem : (a.session.trace.toList.take first).length = first := by
      rw [List.length_take, Trace.length_toList]
      omega
    have hpos := htracks.window.length_pos
    rw [hstem, List.length_map] at hk
    obtain ⟨i, rfl⟩ : ∃ i, k = i + 1 := ⟨k - 1, by omega⟩
    obtain ⟨state, hstate⟩ := Option.isSome_iff_exists.1 (hknown i (by omega) (by omega))
    have hwarm := hlasso.warm i state (by rw [hstem, List.length_map]; exact hk) (by omega) hstate
      name hname
    rwa [hphotograph i state b hb (by omega) hstate, Session.heatOf_photo] at hwarm

/-- The liveness violation that is reported where a run waits. -/
def Pause.reported? {σ τ : Type} (S : Strategy τ) (P : Program σ) (a : Pause σ τ) :
    Option Violation :=
  match (a.answer S P).result with
  | .error (.liveness v) => some v
  | _ => none

theorem Pause.reported?_eq_some_iff {σ τ : Type} {S : Strategy τ} {P : Program σ} {a : Pause σ τ}
    {v : Violation} : a.reported? S P = some v ↔ (a.answer S P).result = .error (.liveness v) := by
  unfold reported?
  constructor
  · intro h
    split at h
    · rename_i hresult
      cases h
      exact hresult
    · cases h
  · intro h
    rw [h]

/-- Tell some things before a handler. -/
def Handler.tellAll {σ : Type} (notices : List Notice) (h : Handler σ) : Handler σ :=
  notices.foldr .tell h

/-- One unit is enabled for ever. The program tells some things as it starts and others whenever the
unit runs. -/
def ticking (first each : List Notice) : Program Unit where
  fresh := ()
  start _ := .tellAll first (.finish ())
  units _ := [⟨⟨1⟩, .actor, true, none⟩]
  current _ := none
  execute _ _ := .tellAll each (.finish ())
  hotMonitors _ := []
  label _ _ := "worker"

/-- A monitor waits for ever. -/
def idleWorker : Program Unit := ticking [.monitor "progress" "Waiting" .hot] []

def hotTwice : Configuration := { strategy := .depthFirst, temperatureThreshold := 2 }

/-- The search of `idleWorker` under the liveness check. -/
abbrev hotTwicePlan : Plan := hotTwice.watching 0 (.depthFirst 5)

theorem liveness_violation_lasso_idleWorker :
    ∃ a, idleWorker.pauseAt hotTwicePlan.strategy hotTwicePlan.start 3 = some a ∧
      (a.answer hotTwicePlan.strategy idleWorker).result =
        .error (.liveness ⟨["progress"], 2, 1⟩) ∧
      ∃ stem cycle rest, Lasso 2 a.session.trace
          (a.answer hotTwicePlan.strategy idleWorker).observer ⟨["progress"], 2, 1⟩
          stem cycle rest ∧
        ∀ k c, stem.length + cycle.length ≤ k → k ≤ 3 →
          idleWorker.pauseAt hotTwicePlan.strategy hotTwicePlan.start k = some c →
          (c.session.observer.heatOf "progress").isCold = false := by
  obtain ⟨a, ha, hreported⟩ := Option.bind_eq_some_iff.1
    (show (idleWorker.pauseAt hotTwicePlan.strategy hotTwicePlan.start 3).bind
      (·.reported? hotTwicePlan.strategy idleWorker) = some ⟨["progress"], 2, 1⟩ by decide +kernel)
  have hv := Pause.reported?_eq_some_iff.1 hreported
  obtain ⟨b, hb, hentry⟩ : ∃ b, idleWorker.pauseAt hotTwicePlan.strategy hotTwicePlan.start 0 =
      some b ∧ b.session.strategy.detector.chase = none := ⟨_, rfl, rfl⟩
  obtain ⟨stem, cycle, rest, hlasso, hwarm⟩ := liveness_violation_lasso (p := .depthFirst 5)
    trivial .start ha hv (Nat.zero_le 3) hb hentry
  exact ⟨a, ha, hv, stem, cycle, rest, hlasso, fun k c hk hk' hc =>
    hwarm k c hk hk' hc "progress" List.mem_cons_self⟩

end Interleave
