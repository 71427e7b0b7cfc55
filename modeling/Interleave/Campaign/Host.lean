import Interleave.Configuration

/-!
# Interleave.Campaign.Host

What surrounds a series of runs: what is done before and after each run and after the last one,
when the series is cancelled, and how much time has passed. `Budget.stops` says when no further
run is begun.
-/

namespace Interleave

/-- The surroundings of a series, with a state of their own. -/
structure Host (η : Type) where
  setup : η → η
  iterationTeardown : η → η
  teardown : η → η
  cancelled : η → Bool
  /-- The time since the series began. -/
  elapsed : η → Duration

/-- How far a series may go. -/
structure Budget where
  /-- The number of runs, where it is limited. -/
  iterations : Option Nat
  timeout : Option Duration
deriving DecidableEq, Repr

namespace Budget

def ofConfiguration (c : Configuration) : Budget where
  iterations := if c.untilTimeout then none else some c.iterations.toNat
  timeout := c.timeout

/-- Whether no further run is begun after so many. -/
def stops {η : Type} (b : Budget) (H : Host η) (completed : Nat) (h : η) : Bool :=
  H.cancelled h || b.timeout.any (fun limit => limit.le (H.elapsed h)) ||
    b.iterations.any (fun n => decide (n ≤ completed))

end Budget
end Interleave
