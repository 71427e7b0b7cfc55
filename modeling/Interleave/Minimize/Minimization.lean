import Interleave.Campaign
import Interleave.Minimize.Transition
import Interleave.Report.Document
import Interleave.Strategy.Plan

/-!
# Interleave.Minimize.Minimization

The bisection of a trace by runs: each length is tried until a run misses the bug or as many runs as
configured have shown it, and then the interval is halved.
-/

namespace Interleave

structure MinimizationReport where
  report : Report
  converged : Bool
  /-- The shortest length at which every run showed the bug. -/
  best : Option Nat
  /-- The length at which the search stopped. -/
  searchSteps : Nat
  /-- How many lengths have been tried. -/
  rounds : Nat

namespace MinimizationReport

def bestText : Option Nat → String
  | none => "None"
  | some n => "Some(" ++ toString n ++ ")"

def text (m : MinimizationReport) : String :=
  "BoundsConverged:" ++ toString m.converged ++ ", bestBound=" ++ bestText m.best ++
    ", rounds=" ++ toString m.rounds ++ "\n" ++ m.report.text

def toJson (m : MinimizationReport) : Json :=
  .record [("report", m.report.toJson), ("bounds_converged", .bool m.converged),
    ("best_bound", .orNull .nat m.best), ("search_steps", .nat m.searchSteps),
    ("rounds", .nat m.rounds)]

end MinimizationReport

/-- A strategy that bisects a trace: `update` notes whether the length just tried shows the bug and
tells whether the search goes on, `narrow` restricts it to the lengths between two. -/
structure Bisecting (τ : Type) extends Strategy τ where
  transition : τ → Transition
  update : Bool → τ → Bool × τ
  narrow : Nat → Nat → τ → τ
  searchSteps : τ → Nat

/-- The search without a suffix: only the whole trace is tried. -/
def Transition.bisecting : Bisecting Transition where
  toStrategy := Transition.strategy
  transition t := t
  update := Transition.close
  narrow := Transition.setBounds
  searchSteps t := t.trace.length

/-- The search with a suffix. -/
def Forked.bisecting {σ : Type} (S : Strategy σ) : Bisecting (Forked σ) where
  toStrategy := Forked.strategy S
  transition s := s.transition
  update found s :=
    let (more, transition) := s.transition.updateBounds found
    (more, { s with transition })
  narrow left right s := { s with transition := s.transition.setBounds left right }
  searchSteps s := s.transition.bisection.current

/-- The plans that bisect a trace. -/
def Plan.bisecting? : (p : Plan) → Option (Bisecting p.State)
  | .transition _ _ _ _ suffix => some (Forked.bisecting suffix.strategy)
  | .wholeTrace _ _ _ _ => some Transition.bisecting
  | _ => none

/-- A search in progress. -/
structure Minimization (τ η : Type) where
  campaign : Campaign τ η
  /-- How many lengths have been tried. -/
  rounds : Nat
  /-- Whether every run at the present length has shown the bug. -/
  alwaysFound : Bool

namespace Minimization

variable {σ τ η : Type}

def report (B : Bisecting τ) (converged : Bool) (report : Report) (rounds : Nat) (strategy : τ) :
    MinimizationReport :=
  { report
    converged
    best := (B.transition strategy).bisection.lastFound
    searchSteps := B.searchSteps strategy
    rounds }

/-- One more run, or the end of the search. -/
def round (fuel : Nat) (B : Bisecting τ) (P : Program σ) (H : Host η) (c : Configuration)
    (m : Minimization τ η) :
    Option (Minimization τ η ⊕ (Except Fault MinimizationReport × τ × η)) :=
  let k := m.campaign
  if (Budget.ofConfiguration c).stops H k.completed k.host then
    some (.inr (.ok (report B false k.report m.rounds k.strategy), k.strategy, k.host))
  else
    (Campaign.runOnce fuel B.toStrategy P H k.strategy k.host).map fun (result, strategy, host) =>
      match k.report.recordRun c.attachTraces (B.isFair strategy) result with
      | .error fault => .inr (.error fault, strategy, host)
      | .ok (found, r) =>
        let alwaysFound := m.alwaysFound && found
        let (continues, strategy) := B.prepare strategy
        if continues && alwaysFound then
          .inl ⟨⟨strategy, host, r, k.completed + 1⟩, m.rounds, alwaysFound⟩
        else
          let (more, strategy) := B.update alwaysFound strategy
          if more then .inl ⟨⟨strategy, host, r, k.completed + 1⟩, m.rounds + 1, true⟩
          else .inr (.ok (report B true r (m.rounds + 1) strategy), strategy, host)

/-- Run the search from a strategy that is reset first, and tear down in any case. -/
def run (fuel : Nat) (B : Bisecting τ) (P : Program σ) (H : Host η) (c : Configuration)
    (strategy : τ) (host : η) : Option (Except Fault MinimizationReport × τ × η) :=
  (iterate (round fuel B P H c) fuel
    ⟨⟨B.reset strategy, host, .new (B.description strategy), 0⟩, 0, true⟩).map
      fun (result, strategy, host) => (result, strategy, H.teardown host)

end Minimization
end Interleave
