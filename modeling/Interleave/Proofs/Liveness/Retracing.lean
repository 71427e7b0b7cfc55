import Interleave.Proofs.Liveness.Watching
import Interleave.Proofs.State.Sums

/-!
# Interleave.Proofs.Liveness.Retracing

Two requests of a run that find the program in one state.

* `Session.Retraces`: the program has told the same in both, and photographs show no difference.
* `retraces_turn`: from the same place the same reply leads to the same place.
* `Program.Faithful`: what equal fingerprints say of the pauses of a run.
* `retraces_of_sameTold`: where the program is in one state and has told the same, the one session
  retraces the other.
-/

namespace Interleave

/-- The share of the enabled units in a fingerprint. -/
def enabledSum (candidates : List Candidate) : UInt64 :=
  (enabledIds candidates).foldl (fun sum unit => sum + Element.digest (.enabled unit)) 0

section Sessions

variable {σ τ : Type}

structure Session.Retraces (s t : Session τ) : Prop where
  observed : t.observer.observed = s.observer.observed
  enabledSum_eq : enabledSum t.offered = enabledSum s.offered
  halted : t.halted = s.halted

namespace Session.Retraces

variable {s t u : Session τ}

theorem refl (s : Session τ) : s.Retraces s := ⟨rfl, rfl, rfl⟩

theorem symm (h : s.Retraces t) : t.Retraces s :=
  ⟨h.observed.symm, h.enabledSum_eq.symm, h.halted.symm⟩

theorem trans (h : s.Retraces t) (h' : t.Retraces u) : s.Retraces u :=
  ⟨h'.observed.trans h.observed, h'.enabledSum_eq.trans h.enabledSum_eq, h'.halted.trans h.halted⟩

theorem heatOf (h : s.Retraces t) (name : String) :
    t.observer.heatOf name = s.observer.heatOf name := by
  unfold Observer.heatOf
  rw [h.observed]

theorem fingerprint (h : s.Retraces t) :
    t.photo.fingerprint =
      s.photo.fingerprint := by
  show t.observer.observed.machineSum + t.observer.observed.monitorSum + enabledSum t.offered =
    s.observer.observed.machineSum + s.observer.observed.monitorSum + enabledSum s.offered
  rw [h.observed, h.enabledSum_eq]

theorem of_fingerprint (hobserved : t.observer.observed = s.observer.observed)
    (hhalted : t.halted = s.halted)
    (h : t.photo.fingerprint =
      s.photo.fingerprint) : s.Retraces t := by
  refine ⟨hobserved, ?_, hhalted⟩
  change t.observer.observed.machineSum + t.observer.observed.monitorSum + enabledSum t.offered =
    s.observer.observed.machineSum + s.observer.observed.monitorSum + enabledSum s.offered at h
  rw [hobserved] at h
  exact UInt64.add_right_inj _ |>.1 h

end Session.Retraces

namespace Session

@[simp] theorem tell_observed (n : Notice) (s : Session τ) :
    (s.tell n).observer.observed = s.observer.observed.note Element.digest n := by
  cases n <;> rfl

@[simp] theorem tell_offered (n : Notice) (s : Session τ) : (s.tell n).offered = s.offered := by
  cases n <;> rfl

@[simp] theorem recordBug_observer (kind : BugKind) (message : String) (s : Session τ) :
    (s.recordBug kind message).observer = s.observer := by
  unfold recordBug
  split <;> rfl

@[simp] theorem recordBug_offered (kind : BugKind) (message : String) (s : Session τ) :
    (s.recordBug kind message).offered = s.offered := by
  unfold recordBug
  split <;> rfl

theorem check_observer (holds : Bool) (message : String) (s : Session τ) :
    (s.check holds message).2.observer = s.observer := by
  unfold check
  repeat' split
  all_goals simp

end Session

theorem congruent_retraces : Session.Congruent (Session.Retraces (τ := τ)) where
  halted h := h.halted.symm
  check message h _ := ⟨by simpa using h.observed, by simpa using h.enabledSum_eq, by simp⟩
  tell n h :=
    ⟨by rw [Session.tell_observed, Session.tell_observed, h.observed],
      by simpa using h.enabledSum_eq, by simpa using h.halted⟩

variable {S : Strategy τ} {P : Program σ}

/-- From the same place the same reply leads to the same place, where the second run may go on. -/
theorem retraces_turn {x : Place σ} {s t : Session τ} (hst : s.Retraces t)
    (hs : ((Pause.mk x s).answer S P).observer.observed = s.observer.observed)
    (ht : ((Pause.mk x t).answer S P).observer.observed = t.observer.observed)
    {v : (x.request P).Reply} (hsv : ((Pause.mk x s).answer S P).result = .ok v)
    (htv : ((Pause.mk x t).answer S P).result = .ok v)
    (hopen : S.atBound ((Pause.mk x t).answer S P).state = false) {b : Pause σ τ}
    (hb : (Pause.mk x s).turn S P = .inl b) :
    ∃ d, (Pause.mk x t).turn S P = .inl d ∧ d.place = b.place ∧ b.session.Retraces d.session := by
  have hanswered : (((Pause.mk x s).answered S P).record P x v).Retraces
      (((Pause.mk x t).answered S P).record P x v) := by
    refine ⟨?_, ?_, ?_⟩
    · simp only [Session.record_observer]
      exact ht.trans (hst.observed.trans hs.symm)
    · cases x <;> exact hst.enabledSum_eq
    · simp only [Session.record_halted]
      exact hst.halted
  have hrelated : Juncture.Related Session.Retraces S.isFull S.isFull P
      (P.settle S.isFull (x.reaction P v) (((Pause.mk x s).answered S P).record P x v))
      (P.settle S.isFull (x.reaction P v) (((Pause.mk x t).answered S P).record P x v)) :=
    settle_related congruent_retraces _ _ _ hanswered
  have hframe := (settle_framed S.isFull P (x.reaction P v)
    (((Pause.mk x t).answered S P).record P x v)).strategy
  rw [Session.record_strategy] at hframe
  unfold Pause.turn at hb ⊢
  rw [hsv, resume_ok] at hb
  rw [htv, resume_ok]
  generalize P.settle S.isFull (x.reaction P v) (((Pause.mk x s).answered S P).record P x v) = j
    at hb hrelated
  generalize P.settle S.isFull (x.reaction P v) (((Pause.mk x t).answered S P).record P x v) = j'
    at hrelated hframe ⊢
  cases hrelated with
  | asked hR _ =>
    cases hb
    exact ⟨_, rfl, rfl, hR⟩
  | ended => cases hb
  | @schedule p s' t' hR _ _ =>
    unfold Program.schedule at hb hframe ⊢
    split at hb
    · cases hb
    · cases hb
      have hstrategy : t'.strategy = ((Pause.mk x t).answer S P).state := by
        split at hframe <;> exact hframe
      have hfull : ¬ S.isFull t' = true := by
        unfold Strategy.isFull
        rw [hstrategy, hopen]
        exact Bool.false_ne_true
      rw [if_neg hfull]
      exact ⟨_, rfl, rfl, hR.observed, rfl, hR.halted⟩

theorem settle_observed {Q : Observed → Prop} (hQ : ∀ n o, Q o → Q (o.note Element.digest n))
    (full : Session τ → Bool) (P : Program σ) (h : Handler σ) :
    ∀ s : Session τ, Q s.observer.observed → Q (P.settle full h s).session.observer.observed :=
  settle_keeps (K := fun s => Q s.observer.observed) (fun _ _ hs => hs)
    (fun s holds message hs => by rwa [Session.check_observer])
    (fun s n hs => by rw [Session.tell_observed]; exact hQ n _ hs) full P h

/-- Wherever a run waits, the observed state has come about by notices. -/
theorem observed_pauseAt {Q : Observed → Prop} (hempty : Q .empty)
    (hnote : ∀ n o, Q o → Q (o.note Element.digest n))
    (hS : ∀ r scene s, (S.answer r scene s).observer.observed = scene.observer.observed)
    {start : τ} {n : Nat} {a : Pause σ τ} (h : P.pauseAt S start n = some a) :
    Q a.session.observer.observed := by
  refine pauseAt_induction (Q := fun a => Q a.session.observer.observed) (fun a ha => ?_)
    (fun a b ha hab => ?_) n a h
  · have hkept := settle_observed hnote S.isFull P (P.start P.fresh) (.new start) hempty
    change P.settle S.isFull (P.start P.fresh) (.new start) = .inl a at ha
    rw [ha] at hkept
    exact hkept
  · obtain ⟨v, hresult, _⟩ := turn_eq_inl hab
    unfold Pause.turn at hab
    rw [hresult, resume_ok] at hab
    have hanswered : Q (((a.answered S P).record P a.place v).observer.observed) := by
      rw [Session.record_observer]
      show Q (a.answer S P).observer.observed
      rw [show (a.answer S P).observer.observed = _ from hS _ _ _]
      exact ha
    have hkept := settle_observed hnote S.isFull P (a.place.reaction P v) _ hanswered
    rw [hab] at hkept
    exact hkept

end Sessions

section Faithful

variable {σ τ : Type}

/-- Requests of one run with equal fingerprints find what `Same` says. -/
def Program.Faithful (S : Strategy τ) (P : Program σ) (start : τ)
    (Same : Pause σ τ → Pause σ τ → Prop) : Prop :=
  ∀ m n a b before after, P.pauseAt S start m = some a → P.pauseAt S start n = some b →
    a.captured? S P = some before → b.captured? S P = some after →
    before.fingerprint = after.fingerprint → Same a b

/-- The program is in the same state and makes the same request, the monitors stand alike, and the
same units are enabled. -/
structure Pause.SameState (a b : Pause σ τ) : Prop where
  place : b.place = a.place
  monitors : b.session.observer.observed.toldMonitors = a.session.observer.observed.toldMonitors
  enabled : ∀ u, u ∈ enabledIds b.session.offered ↔ u ∈ enabledIds a.session.offered

/-- The machines, too, have been told to be in the same states, those under the top included. -/
structure Pause.SameTold (a b : Pause σ τ) : Prop extends Pause.SameState a b where
  machines : b.session.observer.observed.toldMachines = a.session.observer.observed.toldMachines

theorem retraces_of_sameTold {S : Strategy τ} {P : Program σ} {a b : Pause σ τ}
    (h : a.SameTold b) (ha : a.session.observer.observed.Tallied Element.digest)
    (hb : b.session.observer.observed.Tallied Element.digest) (haopen : a.Open S.isFull P)
    (hbopen : b.Open S.isFull P)
    (hfingerprint : b.session.photo.fingerprint =
      a.session.photo.fingerprint) :
    a.session.Retraces b.session :=
  .of_fingerprint (Observed.eq_of_told hb ha h.machines h.monitors)
    (hbopen.running.trans haopen.running.symm) hfingerprint

end Faithful

end Interleave
