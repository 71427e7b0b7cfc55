import Interleave.Proofs.Search.Backtracking

/-!
# Interleave.Proofs.Layer

Strategies that stand over a search: some requests they answer themselves, the others they leave to
it. A `Layer` is what such a strategy does with a request, from a state of its own. As long as that
state is the same whenever a run begins, the search is asked the same again as far as its path goes.

* `Layer.Leads`: the choice tree as the search sees it, which walks only along what it is asked.
* `along_turn`: one request keeps the search on its path.
* `ReadyFrom.run`: no run diverges, and the path that is left behind can be followed from the same
  state of the layer.
-/

namespace Interleave

/-- What stands over a search. -/
structure Layer (φ : Type) where
  /-- What becomes of a request when the search below has made so many steps. -/
  consult : (r : Request) → Nat → Scene → φ → Verdict r.Reply × φ × Observer
  /-- The steps made, given those of the search. -/
  steps : φ → Nat → Nat
  /-- Whether no further unit may be scheduled, given the steps of the search and whether it has got
  as far as it may. -/
  full : φ → Nat → Bool → Bool

/-- The answer that a layer gives itself. -/
def Verdict.own? {α : Type} : Verdict α → Option (Except Refusal α)
  | reply v => some (.ok v)
  | refuse refusal => some (.error refusal)
  | forward => none

/-- A layer refuses no request as one that differs from a schedule. -/
def Layer.Consistent {φ : Type} (F : Layer φ) : Prop :=
  ∀ r n scene f step reason, (F.consult r n scene f).1 ≠ .refuse (.diverged step reason)

theorem Layer.Consistent.own {φ : Type} {F : Layer φ} (hF : F.Consistent) {r : Request} {n : Nat}
    {scene : Scene} {f f' : φ} {o : Observer} {verdict : Verdict r.Reply}
    {result : Except Refusal r.Reply} (hconsult : F.consult r n scene f = (verdict, f', o))
    (hown : verdict.own? = some result) (step : Nat) (reason : Mismatch) :
    result ≠ .error (.diverged step reason) := by
  rintro rfl
  cases verdict with
  | reply v => cases hown
  | forward => cases hown
  | refuse refusal =>
    cases hown
    exact hF _ _ _ _ _ _ (congrArg Prod.fst hconsult)

section Over

variable {φ ν τ : Type}

/-- What a strategy makes of a request by way of a layer and the search below it. -/
inductive Layer.Answers (F : Layer φ) (S : Strategy τ) (frame : ν → φ) (base : ν → τ) (r : Request)
    (scene : Scene) (s : ν) : Answer ν r.Reply → Prop where
  | own {verdict : Verdict r.Reply} {result : Except Refusal r.Reply} {o : Observer} {s' : ν} :
      F.consult r (S.steps (base s)) scene (frame s) = (verdict, frame s', o) →
      verdict.own? = some result → base s' = base s →
      Answers F S frame base r scene s ⟨result, s', o⟩
  | forwarded {o : Observer} {s' : ν} :
      F.consult r (S.steps (base s)) scene (frame s) = (.forward, frame s', o) →
      base s' = (S.answer r { scene with observer := o } (base s)).state →
      Answers F S frame base r scene s
        ⟨(S.answer r { scene with observer := o } (base s)).result, s',
          (S.answer r { scene with observer := o } (base s)).observer⟩

/-- A strategy that consists of a layer and a search, both parts of its state. -/
structure Strategy.Over (L : Strategy ν) (F : Layer φ) (S : Strategy τ) (frame : ν → φ)
    (base : ν → τ) : Prop where
  answer : ∀ r scene s, F.Answers S frame base r scene s (L.answer r scene s)
  steps : ∀ s, L.steps s = F.steps (frame s) (S.steps (base s))
  full : ∀ s, L.atBound s = F.full (frame s) (S.steps (base s)) (S.atBound (base s))
  prepare : ∀ s, base (L.prepare s).2 = (S.prepare (base s)).2
  reset : ∀ s, base (L.reset s) = S.reset (base s)

end Over

section Tree

variable {σ φ : Type}

/-- Whether the layer lets no further unit be scheduled; the search counts its exchanges. -/
def Layer.isFull (F : Layer φ) (bound : Nat) (t : Session (φ × Nat)) : Bool :=
  F.full t.strategy.1 t.strategy.2 (boundReached bound t.strategy.2)

def Layer.root (F : Layer φ) (bound : Nat) (P : Program σ) (f : φ) : Juncture σ (φ × Nat) :=
  P.settle (F.isFull bound) (P.start P.fresh) (.new (f, 0))

namespace Pause

/-- What the layer does with a request. -/
def asked (F : Layer φ) (P : Program σ) (a : Pause σ (φ × Nat)) :
    Verdict (a.place.request P).Reply × φ × Observer :=
  F.consult (a.place.request P) a.session.strategy.2 a.session.scene a.session.strategy.1

/-- Go on with an answer, the state that the layer is left in, and the exchanges of the search. -/
def leave (F : Layer φ) (bound : Nat) (P : Program σ) (a : Pause σ (φ × Nat))
    (result : Except Refusal (a.place.request P).Reply) (f : φ) (n : Nat) (o : Observer) :
    Juncture σ (φ × Nat) :=
  P.resume (F.isFull bound) a.place result { a.session with strategy := (f, n), observer := o }

end Pause

/-- Exchanges with the search lead from a juncture to another one. -/
inductive Layer.Leads (F : Layer φ) (bound : Nat) (P : Program σ) :
    Juncture σ (φ × Nat) → List Exchange → Juncture σ (φ × Nat) → Prop where
  | nil {x : Juncture σ (φ × Nat)} : Leads F bound P x [] x
  | own {a : Pause σ (φ × Nat)} {verdict : Verdict (a.place.request P).Reply}
      {result : Except Refusal (a.place.request P).Reply} {f : φ} {o : Observer}
      {es : List Exchange} {y : Juncture σ (φ × Nat)} : a.asked F P = (verdict, f, o) →
      verdict.own? = some result →
      Leads F bound P (a.leave F bound P result f a.session.strategy.2 o) es y →
      Leads F bound P (.inl a) es y
  | forwarded {a : Pause σ (φ × Nat)} {v : (a.place.request P).Reply} {f : φ} {o : Observer}
      {es : List Exchange} {y : Juncture σ (φ × Nat)} : a.asked F P = (.forward, f, o) →
      v ∈ (a.place.request P).replies →
      Leads F bound P (a.leave F bound P (.ok v) f (a.session.strategy.2 + 1) o) es y →
      Leads F bound P (.inl a) (⟨a.place.request P, v⟩ :: es) y

variable {F : Layer φ} {bound : Nat} {P : Program σ}

namespace Layer.Leads

theorem append {x y z : Juncture σ (φ × Nat)} {es fs : List Exchange}
    (h : F.Leads bound P x es y) (h' : F.Leads bound P y fs z) :
    F.Leads bound P x (es ++ fs) z := by
  induction h with
  | nil => exact h'
  | own hasked hown _ ih => exact .own hasked hown (ih h')
  | forwarded hasked hv _ ih => exact .forwarded hasked hv (ih h')

theorem split {x z : Juncture σ (φ × Nat)} {e : Exchange} {fs : List Exchange} :
    ∀ {es : List Exchange}, F.Leads bound P x (es ++ e :: fs) z →
      ∃ y, F.Leads bound P x es y ∧ F.Leads bound P y (e :: fs) z := by
  intro es h
  generalize hall : es ++ e :: fs = all at h
  induction h generalizing es with
  | nil => cases es <;> cases hall
  | own hasked hown _ ih =>
    obtain ⟨y, hes, hfs⟩ := ih hall
    exact ⟨y, .own hasked hown hes, hfs⟩
  | forwarded hasked hv h ih =>
    cases es with
    | nil =>
      cases hall
      exact ⟨_, .nil, .forwarded hasked hv h⟩
    | cons e' es =>
      cases hall
      obtain ⟨y, hes, hfs⟩ := ih rfl
      exact ⟨y, .forwarded hasked hv hes, hfs⟩

/-- Another reply may be given where the search is asked. -/
theorem retake {x z : Juncture σ (φ × Nat)} {e : Exchange} {fs : List Exchange}
    (h : F.Leads bound P x (e :: fs) z) {w : e.request.Reply} (hw : w ∈ e.request.replies) :
    ∃ y, F.Leads bound P x [⟨e.request, w⟩] y := by
  generalize hall : e :: fs = all at h
  induction h with
  | nil => cases hall
  | own hasked hown _ ih =>
    obtain ⟨y, hy⟩ := ih hall
    exact ⟨y, .own hasked hown hy⟩
  | forwarded hasked _ _ _ =>
    cases hall
    exact ⟨_, .forwarded hasked hw .nil⟩

/-- The path that is left behind can be followed. -/
theorem backtrack {x y : Juncture σ (φ × Nat)} {passed given : List Exchange}
    (h : F.Leads bound P x passed y) (hgiven : Backtracked passed given) :
    ∃ z, F.Leads bound P x given z := by
  rcases hgiven with rfl | ⟨above, e, below, w, hw, rfl, rfl⟩
  · exact ⟨x, .nil⟩
  · obtain ⟨y', habove, hbelow⟩ := h.split
    obtain ⟨z, hz⟩ := hbelow.retake hw
    exact ⟨z, habove.append hz⟩

theorem of_inr {r : Stop σ × Session (φ × Nat)} {es : List Exchange} {y : Juncture σ (φ × Nat)}
    (h : F.Leads bound P (.inr r) es y) : es = [] := by
  cases h
  rfl

variable {a : Pause σ (φ × Nat)} {f : φ} {o : Observer} {es : List Exchange}
  {y : Juncture σ (φ × Nat)}

theorem of_own (h : F.Leads bound P (.inl a) es y) {verdict : Verdict (a.place.request P).Reply}
    {result : Except Refusal (a.place.request P).Reply}
    (hasked : a.asked F P = (verdict, f, o)) (hown : verdict.own? = some result) :
    ∃ z, F.Leads bound P (a.leave F bound P result f a.session.strategy.2 o) es z := by
  cases h with
  | nil => exact ⟨_, .nil⟩
  | own hasked' hown' h =>
    rw [hasked] at hasked'
    cases hasked'
    rw [hown] at hown'
    cases hown'
    exact ⟨_, h⟩
  | forwarded hasked' _ _ =>
    rw [hasked] at hasked'
    cases hasked'
    cases hown

theorem of_forwarded {e : Exchange} (h : F.Leads bound P (.inl a) (e :: es) y)
    (hasked : a.asked F P = (.forward, f, o)) :
    ∃ v ∈ (a.place.request P).replies, e = ⟨a.place.request P, v⟩ ∧
      F.Leads bound P (a.leave F bound P (.ok v) f (a.session.strategy.2 + 1) o) es y := by
  cases h with
  | own hasked' hown _ =>
    rw [hasked] at hasked'
    cases hasked'
    cases hown
  | forwarded hasked' hv h =>
    rw [hasked] at hasked'
    cases hasked'
    exact ⟨_, hv, rfl, h⟩

end Layer.Leads
end Tree

section Runs

variable {σ φ ν τ : Type} {F : Layer φ} {L : Strategy ν} {S : Strategy τ} {frame : ν → φ}
  {base : ν → τ} {bound : Nat} {P : Program σ} {Keeps : τ → List Exchange → List Exchange → Prop}

/-- A session as the layer sees it, with the number of exchanges of the search. -/
def Session.under (frame : ν → φ) (n : Nat) (s : Session ν) : Session (φ × Nat) :=
  { s with strategy := (frame s.strategy, n) }

def Juncture.under (frame : ν → φ) (n : Nat) : Juncture σ ν → Juncture σ (φ × Nat)
  | .inl a => .inl ⟨a.place, a.session.under frame n⟩
  | .inr r => .inr (r.1, r.2.under frame n)

theorem under_recordBug (frame : ν → φ) (n : Nat) (kind : BugKind) (message : String)
    (s : Session ν) :
    (s.recordBug kind message).under frame n = (s.under frame n).recordBug kind message := by
  obtain ⟨strategy, trace, observer, offered, halted, bug, _, _, _, _⟩ := s
  cases bug <;> rfl

theorem under_tell (frame : ν → φ) (n : Nat) (notice : Notice) (s : Session ν) :
    (s.tell notice).under frame n = (s.under frame n).tell notice := by
  cases notice <;> rfl

theorem under_record (frame : ν → φ) (n : Nat) (x : Place σ) (v : (x.request P).Reply)
    (s : Session ν) : (s.record P x v).under frame n = (s.under frame n).record P x v := by
  cases x <;> rfl

theorem under_fail (frame : ν → φ) (n : Nat) (refusal : Refusal) (s : Session ν) :
    (s.fail refusal).under frame n = (s.under frame n).fail refusal := by
  cases refusal with
  | noEnabledChoice => rfl
  | exhausted => rfl
  | diverged step reason => exact under_recordBug frame n _ _ _
  | liveness v => exact under_recordBug frame n _ _ s

theorem under_settle {n : Nat} (h : Handler σ) (s : Session ν)
    (hfull : L.atBound s.strategy = F.full (frame s.strategy) n (boundReached bound n)) :
    (P.settle L.isFull h s).under frame n = P.settle (F.isFull bound) h (s.under frame n) := by
  let R (t : Session ν) (t' : Session (φ × Nat)) : Prop := t.under frame n = t' ∧ s.Framed t
  have hR : Session.Congruent R :=
    { halted := fun h => congrArg (fun s : Session (φ × Nat) => s.halted) h.1
      check := fun message h _ =>
        ⟨(under_recordBug frame n _ _ _).trans (by rw [h.1]), h.2.trans (.recordBug _ _ _)⟩
      tell := fun m h => ⟨(under_tell frame n _ _).trans (by rw [h.1]), h.2.trans (.tell m _)⟩ }
  have hrel : Juncture.Related R L.isFull (F.isFull bound) P (P.settle L.isFull h s)
      (P.settle (F.isFull bound) h (s.under frame n)) :=
    settle_related hR h s _ ⟨rfl, .refl s⟩
  generalize P.settle L.isFull h s = x at hrel ⊢
  generalize P.settle (F.isFull bound) h (s.under frame n) = y at hrel ⊢
  cases hrel with
  | asked hs => rw [← hs.1]; rfl
  | ended hs => rw [← hs.1]; rfl
  | @schedule p t t' hs =>
    have hf : L.isFull t = F.isFull bound (t.under frame n) := by
      show L.atBound t.strategy = F.full (frame t.strategy) n (boundReached bound n)
      rw [hs.2.strategy, hfull]
    rw [← hs.1]
    unfold Program.schedule
    rw [hf]
    split <;> rfl

theorem under_resume {n : Nat} (x : Place σ) (result : Except Refusal (x.request P).Reply)
    (s : Session ν)
    (hfull : L.atBound s.strategy = F.full (frame s.strategy) n (boundReached bound n)) :
    (P.resume L.isFull x result s).under frame n =
      P.resume (F.isFull bound) x result (s.under frame n) := by
  cases result with
  | ok v =>
    rw [resume_ok, resume_ok, ← under_record]
    exact under_settle _ _ (by rw [Session.record_strategy]; exact hfull)
  | error refusal =>
    cases x with
    | scheduling p =>
      cases refusal with
      | noEnabledChoice => rfl
      | exhausted => rfl
      | diverged step reason => simp only [Program.resume, Juncture.under, under_fail]
      | liveness v => simp only [Program.resume, Juncture.under, under_fail]
    | question q next =>
      show (P.settle L.isFull (next none) (s.fail refusal)).under frame n =
        P.settle (F.isFull bound) (next none) ((s.under frame n).fail refusal)
      rw [← under_fail]
      exact under_settle _ _ (by rw [Session.fail_strategy]; exact hfull)

/-- A run in which the search goes along a path, from the state `f` of the layer. -/
structure Juncture.Along (F : Layer φ) (frame : ν → φ) (base : ν → τ) (bound : Nat)
    (P : Program σ) (Keeps : τ → List Exchange → List Exchange → Prop) (f : φ)
    (x : Juncture σ ν) (passed ahead : List Exchange) : Prop where
  keeps : Keeps (base x.session.strategy) passed ahead
  led : F.Leads bound P (F.root bound P f) passed (x.under frame passed.length)
  todo : ∃ y, F.Leads bound P (x.under frame passed.length) ahead y
  consistent : x.session.divergence = none
  waiting : ∀ a, x = .inl a → (a.place.request P).replies ≠ []

/-- A run has ended with the search at the end of its path. -/
structure ClosesAlong (F : Layer φ) (base : ν → τ) (bound : Nat) (P : Program σ)
    (Keeps : τ → List Exchange → List Exchange → Prop) (f : φ) (r : Stop σ × Session ν) :
    Prop where
  keeps : ∃ passed, Keeps (base r.2.strategy) passed [] ∧
    ∃ y, F.Leads bound P (F.root bound P f) passed y
  consistent : r.2.divergence = none

theorem Juncture.Along.closes {f : φ} {r : Stop σ × Session ν} {passed ahead : List Exchange}
    (h : Juncture.Along F frame base bound P Keeps f (.inr r) passed ahead) :
    ClosesAlong F base bound P Keeps f r := by
  obtain ⟨y, htodo⟩ := h.todo
  obtain rfl : ahead = [] := htodo.of_inr
  exact ⟨⟨passed, h.keeps, _, h.led⟩, h.consistent⟩

/-- Whether a unit may be scheduled is told by the layer and the exchanges of the search. -/
theorem atBound_of_keeps (hL : L.Over F S frame base) (hS : S.Backtracks bound Keeps) {s : ν}
    {passed ahead : List Exchange} (h : Keeps (base s) passed ahead) :
    L.atBound s = F.full (frame s) passed.length (boundReached bound passed.length) := by
  rw [hL.full, hS.steps h, hS.atBound h]

/-- What an answer makes of a run, seen from the layer. -/
theorem under_turn (hL : L.Over F S frame base) (hS : S.Backtracks bound Keeps) {a : Pause σ ν}
    {result : Except Refusal (a.place.request P).Reply} {s' : ν} {o : Observer}
    {passed ahead : List Exchange} (n : Nat)
    (hanswer : L.answer (a.place.request P) a.session.scene a.session.strategy = ⟨result, s', o⟩)
    (hkeeps : Keeps (base s') passed ahead) :
    (a.turn L P).under frame passed.length = Pause.leave F bound P
      ⟨a.place, a.session.under frame n⟩ result (frame s') passed.length o := by
  have hturn : a.turn L P =
      P.resume L.isFull a.place result { a.session with strategy := s', observer := o } := by
    simp only [Pause.turn, Pause.answered, Pause.answer, hanswer]
  rw [hturn]
  exact under_resume a.place result { a.session with strategy := s', observer := o }
    (atBound_of_keeps hL hS hkeeps)

section Turn

variable {f : φ} {a : Pause σ ν} {passed ahead : List Exchange} {s' : ν} {o : Observer}

/-- A request that the layer answers itself leaves the search where it is. -/
theorem along_own (hL : L.Over F S frame base) (hF : F.Consistent)
    (hS : S.Backtracks bound Keeps)
    (h : Juncture.Along F frame base bound P Keeps f (.inl a) passed ahead)
    {verdict : Verdict (a.place.request P).Reply}
    {result : Except Refusal (a.place.request P).Reply} (hanswer : a.answer L P = ⟨result, s', o⟩)
    (hasked : Pause.asked F P ⟨a.place, a.session.under frame passed.length⟩ =
      (verdict, frame s', o))
    (hown : verdict.own? = some result) (hbase : base s' = base a.session.strategy) :
    (a.turn L P).Along F frame base bound P Keeps f passed ahead := by
  have hkeeps : Keeps (base s') passed ahead := by
    rw [hbase]
    exact h.keeps
  have hunder := under_turn hL hS passed.length hanswer hkeeps
  have hled := h.led.append (.own hasked hown .nil)
  rw [List.append_nil] at hled
  obtain ⟨y, htodo⟩ := h.todo
  refine ⟨by rw [turn_strategy, hanswer]; exact hkeeps, by rw [hunder]; exact hled,
    by rw [hunder]; exact htodo.of_own hasked hown, (turn_divergence ?_).trans h.consistent,
    turn_waiting⟩
  rw [hanswer]
  exact hF.own hasked hown

/-- An answer of the search makes one more exchange. -/
theorem along_forwarded (hL : L.Over F S frame base) (hS : S.Backtracks bound Keeps)
    (h : Juncture.Along F frame base bound P Keeps f (.inl a) passed ahead) {rest : List Exchange}
    {v : (a.place.request P).Reply} (hanswer : a.answer L P = ⟨.ok v, s', o⟩)
    (hasked : Pause.asked F P ⟨a.place, a.session.under frame passed.length⟩ =
      (.forward, frame s', o))
    (hv : v ∈ (a.place.request P).replies)
    (hkeeps : Keeps (base s') (passed ++ [⟨a.place.request P, v⟩]) rest)
    (htodo : ∃ z, F.Leads bound P (Pause.leave F bound P
      ⟨a.place, a.session.under frame passed.length⟩ (.ok v) (frame s') (passed.length + 1) o)
      rest z) :
    (a.turn L P).Along F frame base bound P Keeps f (passed ++ [⟨a.place.request P, v⟩]) rest := by
  have hunder := under_turn hL hS passed.length hanswer hkeeps
  have hlength : (passed ++ [(⟨a.place.request P, v⟩ : Exchange)]).length = passed.length + 1 :=
    List.length_append
  rw [hlength] at hunder
  refine ⟨by rw [turn_strategy, hanswer]; exact hkeeps, ?_, ?_,
    (turn_divergence ?_).trans h.consistent, turn_waiting⟩
  · rw [hlength, hunder]
    exact h.led.append (.forwarded hasked hv .nil)
  · rw [hlength, hunder]
    exact htodo
  · intro step reason hdiverged
    rw [hanswer] at hdiverged
    cases hdiverged

/-- A run ends at a request for which the search has no answer. -/
theorem closes_exhausted
    (h : Juncture.Along F frame base bound P Keeps f (.inl a) passed ahead)
    (hanswer : a.answer L P = ⟨.error .exhausted, s', o⟩) (hkeeps : Keeps (base s') passed []) :
    ∃ r, a.turn L P = .inr r ∧ ClosesAlong F base bound P Keeps f r := by
  obtain ⟨r, hend, hstrategy, _, hdivergence⟩ := turn_of_exhausted (congrArg Answer.result hanswer)
  rw [hanswer] at hstrategy
  refine ⟨r, hend, ⟨passed, ?_, _, h.led⟩, hdivergence.trans h.consistent⟩
  rw [hstrategy]
  exact hkeeps

/-- One request keeps the search on its path, or it is the last one and the search has no answer. -/
theorem along_turn (hL : L.Over F S frame base) (hF : F.Consistent)
    (hS : S.Backtracks bound Keeps)
    (h : Juncture.Along F frame base bound P Keeps f (.inl a) passed ahead) :
    (∃ passed' ahead', (a.turn L P).Along F frame base bound P Keeps f passed' ahead') ∨
    ∃ r, a.turn L P = .inr r ∧ ClosesAlong F base bound P Keeps f r := by
  have hkeeps : Keeps (base a.session.strategy) passed ahead := h.keeps
  have hsteps : S.steps (base a.session.strategy) = passed.length := hS.steps hkeeps
  have hans := hL.answer (a.place.request P) a.session.scene a.session.strategy
  generalize hanswer : L.answer (a.place.request P) a.session.scene a.session.strategy = ans
    at hans
  cases hans with
  | own hconsult hown hbase =>
    rw [hsteps] at hconsult
    exact .inl ⟨passed, ahead, along_own hL hF hS h hanswer hconsult hown hbase⟩
  | @forwarded o s' hconsult hbase =>
    rw [hsteps] at hconsult
    rw [hS.blind (a.place.request P) { a.session.scene with observer := o }
      (base a.session.strategy)] at hanswer
    cases ahead with
    | nil =>
      rcases hS.extend (a.place.request P) { a.session.scene with observer := o } hkeeps
        (h.waiting a rfl) with ⟨v, hv, hresult, hkeeps'⟩ | ⟨hresult, hkeeps'⟩
      · rw [hresult] at hanswer
        exact .inl ⟨_, [], along_forwarded hL hS h hanswer hconsult hv
          (by rw [hbase]; exact hkeeps') ⟨_, .nil⟩⟩
      · rw [hresult] at hanswer
        exact .inr (closes_exhausted h hanswer (by rw [hbase]; exact hkeeps'))
    | cons e ahead =>
      obtain ⟨y, htodo⟩ := h.todo
      obtain ⟨v, hv, rfl, hrest⟩ := htodo.of_forwarded hconsult
      obtain ⟨hresult, hkeeps'⟩ := hS.follow { a.session.scene with observer := o } hkeeps
      rw [hresult] at hanswer
      exact .inl ⟨_, ahead, along_forwarded hL hS h hanswer hconsult hv
        (by rw [hbase]; exact hkeeps') ⟨y, hrest⟩⟩

end Turn

/-- By induction on the requests of a run. -/
theorem closes_of_concludes (hL : L.Over F S frame base) (hF : F.Consistent)
    (hS : S.Backtracks bound Keeps) {f : φ} {x : Juncture σ ν} {r : Stop σ × Session ν}
    (hr : x.Concludes L P r) : ∀ {passed ahead : List Exchange},
      x.Along F frame base bound P Keeps f passed ahead →
        ClosesAlong F base bound P Keeps f r := by
  induction hr with
  | ended => exact fun h => h.closes
  | turn hturn ih =>
    intro passed ahead h
    rcases along_turn hL hF hS h with ⟨_, _, hnext⟩ | ⟨r', heq, hend⟩
    · exact ih hnext
    · rw [heq] at hturn
      cases hturn
      exact hend

/-- The search before a run that is to follow a path from the state `f` of the layer. -/
def ReadyFrom (F : Layer φ) (base : ν → τ) (bound : Nat) (P : Program σ)
    (Keeps : τ → List Exchange → List Exchange → Prop) (f : φ) (s : ν) : Prop :=
  ∃ given, Keeps (base s) [] given ∧ ∃ y, F.Leads bound P (F.root bound P f) given y

theorem ReadyFrom.opening (hL : L.Over F S frame base) (hS : S.Backtracks bound Keeps) {s : ν}
    {given : List Exchange} (hs : Keeps (base s) [] given)
    (hgiven : ∃ y, F.Leads bound P (F.root bound P (frame s)) given y) :
    (P.opening L s).Along F frame base bound P Keeps (frame s) [] given := by
  have hframe := settle_framed L.isFull P (P.start P.fresh) (.new s)
  have hunder : (P.opening L s).under frame 0 = F.root bound P (frame s) :=
    under_settle _ _ (atBound_of_keeps hL hS hs)
  refine ⟨?_, ?_, ?_, hframe.divergence, fun a ha => ?_⟩
  · show Keeps (base (P.opening L s).session.strategy) [] given
    rw [show (P.opening L s).session.strategy = s from hframe.strategy]
    exact hs
  · rw [List.length_nil, hunder]
    exact .nil
  · rw [List.length_nil, hunder]
    exact hgiven
  · exact (settle_open L.isFull P (fun _ _ => rfl) _ _ a ha).replies_ne_nil

/-- A run does not diverge. The path that it leaves behind once it is closed can be followed if the
layer begins the next run as it has begun this one. -/
theorem ReadyFrom.run (hL : L.Over F S frame base) (hF : F.Consistent)
    (hS : S.Backtracks bound Keeps) {s : ν} (hs : ReadyFrom F base bound P Keeps (frame s) s)
    {r : Stop σ × Session ν} (hr : (P.opening L s).Concludes L P r) :
    r.2.divergence = none ∧
      ReadyFrom F base bound P Keeps (frame s) (L.prepare r.2.strategy).2 := by
  obtain ⟨given, hkeeps, hgiven⟩ := hs
  obtain ⟨⟨passed, hpassed, y, hled⟩, hconsistent⟩ :=
    closes_of_concludes hL hF hS hr (ReadyFrom.opening hL hS hkeeps hgiven)
  obtain ⟨given', hkeeps', hbacktracked⟩ := hS.prepare hpassed
  refine ⟨hconsistent, given', ?_, hled.backtrack hbacktracked⟩
  rw [hL.prepare]
  exact hkeeps'

end Runs
end Interleave
