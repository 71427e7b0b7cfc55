import Interleave.State.Album
import Interleave.State.Observed

/-!
# Interleave.State.Observer

The observer of one run: the state as told so far, and the album of snapshots taken of it. A
snapshot repeats when another step has one with the same fingerprint.
-/

namespace Interleave

structure Observer where
  observed : Observed
  album : Album

/-- What taking a snapshot tells. -/
structure Sighting where
  fingerprint : UInt64
  repeated : Bool
deriving DecidableEq, Repr

namespace Observer

def empty : Observer := ⟨.empty, .empty⟩

instance : Inhabited Observer := ⟨empty⟩

def note (digest : Element → UInt64) (o : Observer) (n : Notice) : Observer :=
  { o with observed := o.observed.note digest n }

def heatOf (o : Observer) (name : String) : Heat := o.observed.heatOf name

def snapshotAt? (o : Observer) (step : Nat) : Option Snapshot := o.album.get? step

/-- The steps whose snapshot has a fingerprint. -/
def occurrences (o : Observer) (fingerprint : UInt64) : Occurrences :=
  o.album.occurrences fingerprint

def look (digest : Element → UInt64) (candidates : List Candidate) (o : Observer) : Snapshot where
  fingerprint := o.observed.fingerprint digest candidates
  enabled := .ofList (enabledIds candidates)
  monitors := o.observed.monitors.mapValues (·.heat)

def sighting (o : Observer) (fingerprint : UInt64) : Sighting :=
  ⟨fingerprint, decide (1 < (o.occurrences fingerprint).count)⟩

/-- Take the snapshot of a step, unless the step has one already. -/
def capture (digest : Element → UInt64) (step : Nat) (candidates : List Candidate)
    (o : Observer) : Sighting × Observer :=
  match known : o.album.get? step with
  | some snapshot => (o.sighting snapshot.fingerprint, o)
  | none =>
    let snapshot := o.look digest candidates
    let o := { o with album := o.album.add step snapshot known }
    (o.sighting snapshot.fingerprint, o)

@[simp] theorem capture_observed (digest : Element → UInt64) (step : Nat)
    (candidates : List Candidate) (o : Observer) :
    (o.capture digest step candidates).2.observed = o.observed := by
  unfold capture
  split <;> rfl

end Observer
end Interleave
