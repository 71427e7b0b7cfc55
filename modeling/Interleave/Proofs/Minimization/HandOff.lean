import Interleave.Proofs.Demands

/-!
# Interleave.Proofs.Minimization.HandOff

Who answers the requests of a run of the search for a critical transition.

* `Trace.Answers`: the trace answers requests one after the other, as long as they fit its choices
  and up to the length that is tried.
* `serve_left`: once the trace is left it is not taken up again, and the suffix answers.
* `serve_forked`: a run consists of requests that the trace answers and of requests that are left to
  the suffix.
* `Trace.Recites`, `serve_wholeTrace`: without a suffix the whole trace is followed, and what does
  not fit it is refused.
-/

namespace Interleave

/-- The trace has no answer to a request at a step: it is over, or its choice does not fit. -/
def Trace.Misfits (T : Trace) (i : Nat) (r : Request) : Prop :=
  r.nothingEnabled = false ∧ ∀ c v, T.get? i = some c → ¬ c.Serves r v

/-- Why the trace misfits a request. -/
def Trace.reason (T : Trace) (i : Nat) (r : Request) : Mismatch :=
  (T.get? i).elim .traceEnded (Transition.mismatch r)

/-- What a trace responds to requests from step `i` to step `j`, of which there are fewer than
`limit` to follow. Where no unit is enabled the request is refused and no step is made. -/
inductive Trace.Answers (T : Trace) (limit : Nat) :
    Nat → List Ask → Nat → List Response → Prop where
  | nil {i : Nat} : Answers T limit i [] i []
  | idle {i j : Nat} {a : Ask} {asks : List Ask} {responses : List Response} : i < limit →
      a.request.nothingEnabled = true → Answers T limit i asks j responses →
      Answers T limit i (a :: asks) j
        (⟨a.request, .error .noEnabledChoice, a.scene.observer⟩ :: responses)
  | step {i j : Nat} {a : Ask} {asks : List Ask} {responses : List Response} {c : Choice}
      {v : a.request.Reply} : i < limit → T.get? i = some c → c.Serves a.request v →
      Answers T limit (i + 1) asks j responses →
      Answers T limit i (a :: asks) j (⟨a.request, .ok v, a.scene.observer⟩ :: responses)

theorem Trace.Answers.le {T : Trace} {limit i j : Nat} {asks : List Ask}
    {responses : List Response} (h : T.Answers limit i asks j responses)
    (hi : i ≤ min limit T.length) : j ≤ min limit T.length := by
  induction h with
  | nil => exact hi
  | idle _ _ _ ih => exact ih hi
  | step hlt hc _ _ ih =>
    have hlength := T.lt_length_of_get? hc
    exact ih (by omega)

/-- The requests of a run in two parts: the trace answers the first part, from its first step to
step `followed`; the second one begins at the length tried or with a request that the trace
misfits. -/
structure Trace.Divides (T : Trace) (length : Nat) (asks ahead rest : List Ask) (followed : Nat)
    (responses : List Response) : Prop where
  asks_eq : asks = ahead ++ rest
  answers : T.Answers length 0 ahead followed responses
  followed_le : followed ≤ min length T.length
  leaves : ∀ a, rest.head? = some a → followed = length ∨ T.Misfits followed a.request

/-- What a whole trace responds to requests from step `i` to step `j`: a request that it misfits is
refused with the step it stands at. -/
inductive Trace.Recites (T : Trace) : Nat → List Ask → Nat → List Response → Prop where
  | nil {i : Nat} : Recites T i [] i []
  | idle {i j : Nat} {a : Ask} {asks : List Ask} {responses : List Response} :
      a.request.nothingEnabled = true → Recites T i asks j responses →
      Recites T i (a :: asks) j
        (⟨a.request, .error .noEnabledChoice, a.scene.observer⟩ :: responses)
  | step {i j : Nat} {a : Ask} {asks : List Ask} {responses : List Response} {c : Choice}
      {v : a.request.Reply} : T.get? i = some c → c.Serves a.request v →
      Recites T (i + 1) asks j responses →
      Recites T i (a :: asks) j (⟨a.request, .ok v, a.scene.observer⟩ :: responses)
  | misfit {i j : Nat} {a : Ask} {asks : List Ask} {responses : List Response} :
      T.Misfits i a.request → Recites T i asks j responses →
      Recites T i (a :: asks) j
        (⟨a.request, .error (.diverged i (T.reason i a.request)), a.scene.observer⟩ :: responses)

namespace Transition

/-- A run of the search is about to begin. -/
structure AtStart (t : Transition) : Prop where
  followed : t.followed = 0
  following : t.following = true

theorem atStart_new (trace : Trace) (fair : Bool) (fairBound maxWalks : Nat) :
    (new trace fair fairBound maxWalks).AtStart := ⟨rfl, rfl⟩

theorem atStart_beginRun (t : Transition) : t.beginRun.AtStart := ⟨rfl, rfl⟩

theorem atStart_countWalk (t : Transition) : t.countWalk.AtStart := ⟨rfl, rfl⟩

/-- What the trace has on record for a request: where it misfits the request, the reason. -/
theorem recorded_cases (r : Request) (t : Transition) :
    (∃ c v, t.trace.get? t.followed = some c ∧ c.Serves r v ∧ t.recorded r = .ok v) ∨
    ((∀ c v, t.trace.get? t.followed = some c → ¬ c.Serves r v) ∧
      t.recorded r = .error (t.trace.reason t.followed r)) := by
  unfold recorded Trace.reason
  cases hc : t.trace.get? t.followed with
  | none => exact .inr ⟨nofun, rfl⟩
  | some c =>
    cases hv : r.accept? c with
    | some v => exact .inl ⟨c, v, rfl, accept?_eq_some_iff.1 hv, by simp only [hv]⟩
    | none =>
      refine .inr ⟨?_, by simp only [hv]; rfl⟩
      rintro _ v ⟨⟩ hserves
      rw [accept?_eq_some_iff.2 hserves] at hv
      cases hv

variable {r : Request} {t : Transition}

theorem consult_left (h : t.following = false ∨ t.bisection.current ≤ t.followed) :
    t.consult r = (.forward, t) := by
  unfold consult
  rw [if_neg]
  rcases h with h | h
  · simp [h]
  · simp [h]

theorem consult_following (h : t.following = true) (hlt : t.followed < t.bisection.current) :
    (r.nothingEnabled = true ∧ t.consult r = (.refuse .noEnabledChoice, t)) ∨
    (∃ c v, t.trace.get? t.followed = some c ∧ c.Serves r v ∧
      t.consult r = (.reply v, { t with followed := t.followed + 1 })) ∨
    (t.trace.Misfits t.followed r ∧ t.consult r = (.forward, { t with following := false })) := by
  have hopen : (t.following && decide (t.followed < t.bisection.current)) = true := by simp [h, hlt]
  unfold consult
  rw [if_pos hopen]
  cases hidle : r.nothingEnabled with
  | true => exact .inl ⟨rfl, rfl⟩
  | false =>
    rw [if_neg Bool.false_ne_true]
    rcases recorded_cases r t with ⟨c, v, hc, hserves, hrecorded⟩ | ⟨hnone, hrecorded⟩
    · exact .inr (.inl ⟨c, v, hc, hserves, by rw [hrecorded]⟩)
    · exact .inr (.inr ⟨⟨hidle, hnone⟩, by rw [hrecorded]⟩)

theorem reply_cases (r : Request) (t : Transition) :
    (r.nothingEnabled = true ∧ t.reply r = (.error .noEnabledChoice, t)) ∨
    (∃ c v, t.trace.get? t.followed = some c ∧ c.Serves r v ∧
      t.reply r = (.ok v, { t with followed := t.followed + 1 })) ∨
    (t.trace.Misfits t.followed r ∧
      t.reply r = (.error (.diverged t.followed (t.trace.reason t.followed r)), t)) := by
  unfold reply
  cases hidle : r.nothingEnabled with
  | true => exact .inl ⟨rfl, rfl⟩
  | false =>
    rw [if_neg Bool.false_ne_true]
    rcases recorded_cases r t with ⟨c, v, hc, hserves, hrecorded⟩ | ⟨hnone, hrecorded⟩
    · exact .inr (.inl ⟨c, v, hc, hserves, by rw [hrecorded]⟩)
    · exact .inr (.inr ⟨⟨hidle, hnone⟩, by rw [hrecorded]⟩)

end Transition

section Runs

variable {τ : Type} {S : Strategy τ}

/-- The suffix answers what is left to it. -/
theorem forked_answer {r : Request} {scene : Scene} {t t' : Transition} {s : τ}
    {verdict : Verdict r.Reply} (h : t.consult r = (verdict, t')) :
    (Forked.strategy S).answer r scene ⟨t, s⟩ =
      match verdict with
      | .reply v => ⟨.ok v, ⟨t', s⟩, scene.observer⟩
      | .refuse refusal => ⟨.error refusal, ⟨t', s⟩, scene.observer⟩
      | .forward => ⟨(S.answer r scene s).result, ⟨t', (S.answer r scene s).state⟩,
          (S.answer r scene s).observer⟩ := by
  show Forked.answer S r scene ⟨t, s⟩ = _
  simp only [Forked.answer, h]
  cases verdict <;> rfl

/-- Once the trace is left all requests go to the suffix, one by one and as they are. -/
theorem serve_left (asks : List Ask) : ∀ {t : Transition} (s : τ),
    t.following = false ∨ t.bisection.current ≤ t.followed →
    (Forked.strategy S).serve ⟨t, s⟩ asks = ((S.serve s asks).1, ⟨t, (S.serve s asks).2⟩) := by
  induction asks with
  | nil => exact fun s _ => rfl
  | cons a asks ih =>
    intro t s h
    rw [Strategy.serve_cons (forked_answer (Transition.consult_left h)), ih _ h]
    rfl

/-- A run consists of requests that the trace answers and of requests that the suffix answers. The
induction is on the requests; after one that the trace answers the rest is divided from its next
step on. -/
theorem serve_forked (S : Strategy τ) (asks : List Ask) : ∀ (t : Transition) (s : τ),
    t.following = true → t.followed ≤ t.bisection.current →
    ∃ ahead rest followed responses following, asks = ahead ++ rest ∧
      t.trace.Answers t.bisection.current t.followed ahead followed responses ∧
      (∀ a, rest.head? = some a →
        followed = t.bisection.current ∨ t.trace.Misfits followed a.request) ∧
      (Forked.strategy S).serve ⟨t, s⟩ asks =
        (responses ++ (S.serve s rest).1,
          ⟨{ t with followed, following }, (S.serve s rest).2⟩) := by
  induction asks with
  | nil =>
    exact fun t s _ _ => ⟨[], [], t.followed, [], t.following, rfl, .nil, nofun, rfl⟩
  | cons a asks ih =>
    intro t s h hle
    rcases Nat.lt_or_eq_of_le hle with hlt | heq
    · rcases Transition.consult_following (r := a.request) h hlt with
        ⟨hidle, hconsult⟩ | ⟨c, v, hc, hserves, hconsult⟩ | ⟨hmisfits, hconsult⟩
      · obtain ⟨ahead, rest, followed, responses, following, rfl, hanswers, hleaves, hserve⟩ :=
          ih t s h hle
        refine ⟨a :: ahead, rest, followed, _, following, rfl, .idle hlt hidle hanswers,
          hleaves, ?_⟩
        rw [Strategy.serve_cons (forked_answer hconsult), hserve]
        rfl
      · obtain ⟨ahead, rest, followed, responses, following, rfl, hanswers, hleaves, hserve⟩ :=
          ih { t with followed := t.followed + 1 } s h hlt
        refine ⟨a :: ahead, rest, followed, _, following, rfl, .step hlt hc hserves hanswers,
          hleaves, ?_⟩
        rw [Strategy.serve_cons (forked_answer hconsult), hserve]
        rfl
      · refine ⟨[], a :: asks, t.followed, [], false, rfl, .nil, ?_, ?_⟩
        · rintro _ ⟨⟩
          exact .inr hmisfits
        · rw [Strategy.serve_cons (forked_answer hconsult), serve_left asks _ (.inl rfl)]
          rfl
    · exact ⟨[], a :: asks, t.followed, [], t.following, rfl, .nil, fun _ _ => .inl heq,
        serve_left (a :: asks) s (.inr (Nat.le_of_eq heq.symm))⟩

theorem wholeTrace_answer {r : Request} {scene : Scene} {t t' : Transition}
    {result : Except Refusal r.Reply} (h : t.reply r = (result, t')) :
    Transition.strategy.answer r scene t = ⟨result, t', scene.observer⟩ := by
  show Answer.blind scene (t.reply r) = _
  rw [h]
  rfl

/-- Without a suffix every request is answered from the trace, whatever length is tried. -/
theorem serve_wholeTrace (asks : List Ask) : ∀ t : Transition,
    ∃ followed responses, t.trace.Recites t.followed asks followed responses ∧
      Transition.strategy.serve t asks = (responses, { t with followed }) := by
  induction asks with
  | nil => exact fun t => ⟨t.followed, [], .nil, rfl⟩
  | cons a asks ih =>
    intro t
    rcases t.reply_cases a.request with
      ⟨hidle, hreply⟩ | ⟨c, v, hc, hserves, hreply⟩ | ⟨hmisfits, hreply⟩
    · obtain ⟨followed, responses, hrecites, hserve⟩ := ih t
      refine ⟨followed, _, .idle hidle hrecites, ?_⟩
      rw [Strategy.serve_cons (wholeTrace_answer hreply), hserve]
    · obtain ⟨followed, responses, hrecites, hserve⟩ := ih { t with followed := t.followed + 1 }
      refine ⟨followed, _, .step hc hserves hrecites, ?_⟩
      rw [Strategy.serve_cons (wholeTrace_answer hreply), hserve]
    · obtain ⟨followed, responses, hrecites, hserve⟩ := ih t
      refine ⟨followed, _, .misfit hmisfits hrecites, ?_⟩
      rw [Strategy.serve_cons (wholeTrace_answer hreply), hserve]

/-- A run follows the trace up to the length tried or to the first request that does not fit, and
leaves all requests from there on to the suffix, each of them once. Without a suffix it follows the
whole trace. Every run begins with the first step of the trace. -/
theorem trace_then_suffix (S : Strategy τ) (asks : List Ask) :
    (∀ (t : Transition) (s : τ) (log : List Demand), t.AtStart →
      ∃ ahead rest followed responses following,
        t.trace.Divides t.bisection.current asks ahead rest followed responses ∧
        (Forked.strategy S.logged).serve ⟨t, (s, log)⟩ asks =
          (responses ++ (S.serve s rest).1,
            ⟨{ t with followed, following }, (S.serve s rest).2, log ++ rest.map .ask⟩)) ∧
    (∀ t : Transition, t.AtStart →
      ∃ followed responses, t.trace.Recites 0 asks followed responses ∧
        Transition.strategy.serve t asks = (responses, { t with followed })) ∧
    (∀ s : Forked τ, ((Forked.strategy S).prepare s).2.transition.AtStart ∧
      ((Forked.strategy S).reset s).transition.AtStart) ∧
    ∀ t : Transition, (Transition.strategy.prepare t).2.AtStart ∧
      (Transition.strategy.reset t).AtStart := by
  refine ⟨fun t s log ht => ?_, fun t ht => ?_, fun s => ?_, fun t => ?_⟩
  · have hle : t.followed ≤ t.bisection.current := by rw [ht.followed]; exact Nat.zero_le _
    obtain ⟨ahead, rest, followed, responses, following, hasks, hanswers, hleaves, hserve⟩ :=
      serve_forked S.logged asks t (s, log) ht.following hle
    rw [ht.followed] at hanswers
    refine ⟨ahead, rest, followed, responses, following,
      ⟨hasks, hanswers, hanswers.le (Nat.zero_le _), hleaves⟩, ?_⟩
    rw [hserve, Strategy.serve_logged]
  · have hrecites := serve_wholeTrace asks t
    rwa [ht.followed] at hrecites
  · exact ⟨s.transition.atStart_countWalk, s.transition.atStart_beginRun⟩
  · exact ⟨t.atStart_countWalk, t.atStart_beginRun⟩

/-- A trace of four steps, two of which are followed before a suffix takes over. -/
def fourSteps : Transition :=
  .new (.ofList [.unit ⟨2⟩, .fairBoolean "coin" true, .unit ⟨1⟩, .unit ⟨1⟩]) false 10 1

/-- A unit is asked for while none is enabled, and again once the trace has been left. -/
def fiveAsks : List Ask :=
  [⟨.unit [.actor ⟨1⟩, .actor ⟨2⟩] none, .empty⟩, ⟨.unit [] none, .empty⟩, ⟨.boolean 2, .empty⟩,
    ⟨.unit [.actor ⟨1⟩, .actor ⟨2⟩] none, .empty⟩, ⟨.boolean 2, .empty⟩]

theorem trace_then_suffix_fourSteps :
    fourSteps.AtStart ∧
      (∃ ahead rest followed responses following,
        fourSteps.trace.Divides 2 fiveAsks ahead rest followed responses ∧
        (Forked.strategy DepthFirst.strategy.logged).serve ⟨fourSteps, (.new 0, [])⟩ fiveAsks =
          (responses ++ (DepthFirst.strategy.serve (.new 0) rest).1,
            ⟨{ fourSteps with followed, following },
              (DepthFirst.strategy.serve (.new 0) rest).2, [] ++ rest.map .ask⟩) ∧
        followed = 2 ∧ rest.length = 2) := by
  have hstart : fourSteps.AtStart := Transition.atStart_new _ _ _ _
  obtain ⟨ahead, rest, followed, responses, following, hdivides, hserve⟩ :=
    (trace_then_suffix DepthFirst.strategy fiveAsks).1 fourSteps (.new 0) [] hstart
  have hfollowed : ((Forked.strategy DepthFirst.strategy.logged).serve
      ⟨fourSteps, (.new 0, [])⟩ fiveAsks).2.transition.followed = 2 := by decide +kernel
  have hlog : ((Forked.strategy DepthFirst.strategy.logged).serve
      ⟨fourSteps, (.new 0, [])⟩ fiveAsks).2.suffix.2.length = 2 := by decide +kernel
  rw [hserve] at hfollowed hlog
  refine ⟨hstart, ahead, rest, followed, responses, following, hdivides, hserve, hfollowed, ?_⟩
  simpa using hlog

end Runs

end Interleave
