import Interleave.Proofs.Conformance

/-!
# Interleave.Proofs.Demands

A strategy under whatever is demanded of it: answers to requests in any scene, the end of a run, a
new start.

* `Strategy.after`, `Strategy.serve`: the state that a list of demands leaves behind, and the
  responses to requests one after the other.
* `Strategy.logged`: a strategy that keeps a log of its demands, which shows what a strategy over it
  lets it see.
* `Choice.Serves`: how a recorded choice answers a request.
-/

namespace Interleave

/-- A request with all that a strategy may look at. -/
structure Ask where
  request : Request
  scene : Scene

structure Response where
  request : Request
  result : Except Refusal request.Reply
  observer : Observer

inductive Demand
  | ask (a : Ask)
  | prepare
  | reset

namespace Strategy

variable {τ : Type}

def meet (S : Strategy τ) (s : τ) : Demand → τ
  | .ask a => (S.answer a.request a.scene s).state
  | .prepare => (S.prepare s).2
  | .reset => S.reset s

def after (S : Strategy τ) (s : τ) (demands : List Demand) : τ := demands.foldl S.meet s

@[simp] theorem after_nil (S : Strategy τ) (s : τ) : S.after s [] = s := rfl

@[simp] theorem after_cons (S : Strategy τ) (s : τ) (d : Demand) (demands : List Demand) :
    S.after s (d :: demands) = S.after (S.meet s d) demands := rfl

def respond (S : Strategy τ) (s : τ) (a : Ask) : Response :=
  let x := S.answer a.request a.scene s
  ⟨a.request, x.result, x.observer⟩

/-- The responses to requests one after the other, and the state after them. -/
def serve (S : Strategy τ) : τ → List Ask → List Response × τ
  | s, [] => ([], s)
  | s, a :: asks =>
    let later := S.serve (S.meet s (.ask a)) asks
    (S.respond s a :: later.1, later.2)

theorem serve_cons {S : Strategy τ} {s s' : τ} {a : Ask} {result : Except Refusal a.request.Reply}
    {observer : Observer} (h : S.answer a.request a.scene s = ⟨result, s', observer⟩)
    (asks : List Ask) :
    S.serve s (a :: asks) =
      (⟨a.request, result, observer⟩ :: (S.serve s' asks).1, (S.serve s' asks).2) := by
  simp only [serve, respond, meet, h]

/-- A strategy with a log of its demands. -/
def logged (S : Strategy τ) : Strategy (τ × List Demand) where
  answer r scene s :=
    let a := S.answer r scene s.1
    ⟨a.result, (a.state, s.2 ++ [.ask ⟨r, scene⟩]), a.observer⟩
  prepare s := ((S.prepare s.1).1, (S.prepare s.1).2, s.2 ++ [.prepare])
  reset s := (S.reset s.1, s.2 ++ [.reset])
  steps s := S.steps s.1
  atBound s := S.atBound s.1
  isFair s := S.isFair s.1
  description s := S.description s.1

theorem meet_logged (S : Strategy τ) (s : τ × List Demand) (d : Demand) :
    S.logged.meet s d = (S.meet s.1 d, s.2 ++ [d]) := by
  cases d <;> rfl

/-- The log does not change the responses. -/
theorem serve_logged (S : Strategy τ) (asks : List Ask) : ∀ (s : τ) (log : List Demand),
    S.logged.serve (s, log) asks =
      ((S.serve s asks).1, (S.serve s asks).2, log ++ asks.map .ask) := by
  induction asks with
  | nil => intro s log; simp [serve]
  | cons a asks ih =>
    intro s log
    rw [serve, serve, meet_logged, ih, List.append_assoc]
    rfl

end Strategy

/-- A recorded choice answers a request of its kind; a unit only where it is enabled now. A fair
boolean serves like any other. -/
inductive Choice.Serves : Choice → (r : Request) → r.Reply → Prop where
  | unit {u : UnitId} {candidates : List Candidate} {current : Option Candidate} :
      u ∈ enabledIds candidates → Serves (.unit u) (.unit candidates current) u
  | boolean {value : Bool} {max : UInt64} : Serves (.boolean value) (.boolean max) value
  | fairBoolean {id : String} {value : Bool} {max : UInt64} :
      Serves (.fairBoolean id value) (.boolean max) value
  | integer {value max : UInt64} : Serves (.integer value) (.integer max) value

theorem accept?_eq_some_iff {r : Request} {c : Choice} {v : r.Reply} :
    r.accept? c = some v ↔ c.Serves r v := by
  constructor
  · intro h
    cases r with
    | unit candidates current =>
      obtain ⟨u, hu, hv⟩ := Option.bind_eq_some_iff.1 h
      cases c with
      | unit id =>
        cases hu
        split at hv
        · rename_i hmem
          cases hv
          exact .unit hmem
        · cases hv
      | boolean value => cases hu
      | fairBoolean id value => cases hu
      | integer value => cases hu
    | boolean max =>
      cases c with
      | boolean value => cases h; exact .boolean
      | fairBoolean id value => cases h; exact .fairBoolean
      | unit id => cases h
      | integer value => cases h
    | integer max =>
      cases c with
      | integer value => cases h; exact .integer
      | unit id => cases h
      | boolean value => cases h
      | fairBoolean id value => cases h
  · intro h
    cases h with
    | unit hmem => simp [Request.accept?, Choice.unit?, hmem]
    | boolean => rfl
    | fairBoolean => rfl
    | integer => rfl

end Interleave
