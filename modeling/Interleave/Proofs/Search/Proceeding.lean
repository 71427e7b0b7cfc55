import Interleave.Proofs.Exchange.Leaves

/-!
# Interleave.Proofs.Search.Proceeding

Strategies that follow a path and may have no answer beyond its end. A run goes along the path,
goes on beyond it as long as there is an answer, and ends where there is none, with its path kept.
Nothing is asked of the requests: `Strategy.Proceeds` speaks of all of them.

* `proceeds_turn`: one request adds an exchange, or it is the last one.
* `Strategy.Proceeds.never_diverges`: no request is answered by a divergence.
* `Strategy.Proceeds.ends`: the walk that a run has made when it ends.
* `Strategy.Proceeds.concludes`: a run ends where walks have a greatest length.
-/

namespace Interleave

section Proceeding

variable {σ τ : Type}

/-- Answers follow the path of a state, and extend it at its end unless there is none to give. -/
structure Strategy.Proceeds (S : Strategy τ) (bound : Nat)
    (Keeps : τ → List Exchange → List Exchange → Prop) : Prop extends S.Counts bound Keeps where
  follow : ∀ {s passed e ahead} scene, Keeps s passed (e :: ahead) →
    (S.answer e.request scene s).result = .ok e.reply ∧
      Keeps (S.answer e.request scene s).state (passed ++ [e]) ahead
  extend : ∀ {s passed} (r : Request) scene, Keeps s passed [] → r.replies ≠ [] →
    (∃ v ∈ r.replies, (S.answer r scene s).result = .ok v ∧
      Keeps (S.answer r scene s).state (passed ++ [⟨r, v⟩]) []) ∨
    (S.answer r scene s).result = .error .exhausted ∧ Keeps (S.answer r scene s).state passed []

variable {S : Strategy τ} {bound : Nat} {P : Program σ}
  {Keeps : τ → List Exchange → List Exchange → Prop} {given : List Exchange}

/-- A run has ended at the end of its path: at a leaf, or at a request without an answer. -/
structure EndsAlong (bound : Nat) (P : Program σ) (Keeps : τ → List Exchange → List Exchange → Prop)
    (given : List Exchange) (r : Stop σ × Session τ) (passed : List Exchange) : Prop where
  keeps : Keeps r.2.strategy passed []
  walked : ∃ y, (P.root bound).Passes bound P passed y ∧ y.session.trace = r.2.trace
  given : given <+: passed
  consistent : r.2.divergence = none

theorem Juncture.Follows.consistent {x : Juncture σ τ} {passed ahead : List Exchange}
    (h : x.Follows bound P Keeps given passed ahead) : x.session.divergence = none := by
  have hroot : (P.root bound).session.divergence = none := (settle_framed _ P _ _).divergence
  have hforget : x.session.divergence = x.forget.session.divergence := by cases x <;> rfl
  rw [hforget, h.walked.divergence, hroot]

theorem Juncture.Follows.ends {r : Stop σ × Session τ} {passed ahead : List Exchange}
    (h : Juncture.Follows bound P Keeps given (.inr r) passed ahead) :
    EndsAlong bound P Keeps given r passed := by
  obtain ⟨y, htodo⟩ := h.todo
  obtain rfl : ahead = [] := htodo.of_inr.1
  obtain ⟨new, hgiven⟩ := h.given
  exact ⟨h.keeps, ⟨_, h.walked, rfl⟩, ⟨new, by simpa using hgiven.symm⟩, h.consistent⟩

/-- Where there is no answer the run ends, and its walk is what it was before. -/
theorem ends_of_exhausted {a : Pause σ τ} {passed : List Exchange}
    (h : Juncture.Follows bound P Keeps given (.inl a) passed [])
    (hresult : (a.answer S P).result = .error .exhausted)
    (hkeeps : Keeps (a.answer S P).state passed []) :
    ∃ r, a.turn S P = .inr r ∧ EndsAlong bound P Keeps given r passed := by
  obtain ⟨r, hturn, hstrategy, htrace, hdivergence⟩ := turn_of_exhausted hresult
  obtain ⟨new, hgiven⟩ := h.given
  exact ⟨r, hturn, by rwa [hstrategy], ⟨_, h.walked, htrace.symm⟩,
    ⟨new, by simpa using hgiven.symm⟩, hdivergence.trans h.consistent⟩

/-- A request adds an exchange to the walk, or it is the last one and has no answer. -/
theorem proceeds_turn (hS : S.Proceeds bound Keeps) {a : Pause σ τ} {passed ahead : List Exchange}
    (h : Juncture.Follows bound P Keeps given (.inl a) passed ahead) :
    (∃ v rest, (a.answer S P).result = .ok v ∧
      (a.turn S P).Follows bound P Keeps given (passed ++ [⟨a.place.request P, v⟩]) rest) ∨
    (a.answer S P).result = .error .exhausted ∧
      ∃ r, a.turn S P = .inr r ∧ EndsAlong bound P Keeps given r passed := by
  cases ahead with
  | nil =>
    rcases hS.extend (a.place.request P) a.session.scene h.keeps (h.waiting a rfl) with
      ⟨v, hv, hresult, hkeeps⟩ | ⟨hresult, hkeeps⟩
    · exact .inl ⟨v, [], hresult, h.reply hS.toCounts hv hresult hkeeps (.inr ⟨rfl, rfl⟩)⟩
    · exact .inr ⟨hresult, ends_of_exhausted h hresult hkeeps⟩
  | cons e ahead =>
    obtain ⟨y, htodo⟩ := h.todo
    obtain ⟨v, hv, rfl, _⟩ := htodo.of_inl
    obtain ⟨hresult, hkeeps⟩ := hS.follow a.session.scene h.keeps
    exact .inl ⟨v, ahead, hresult, h.reply hS.toCounts hv hresult hkeeps (.inl rfl)⟩

namespace Strategy.Proceeds

variable {s : τ}

theorem pauseAt (hS : S.Proceeds bound Keeps) (hs : Keeps s [] given)
    (hgiven : ∃ y, (P.root bound).Passes bound P given y) {n : Nat} {a : Pause σ τ}
    (ha : P.pauseAt S s n = some a) :
    ∃ passed ahead, Juncture.Follows bound P Keeps given (.inl a) passed ahead := by
  refine pauseAt_induction (Q := fun a => ∃ passed ahead,
    Juncture.Follows bound P Keeps given (.inl a) passed ahead) (fun a ha => ?_)
    (fun a b h hab => ?_) n a ha
  · have hopening := hS.toCounts.opening hs hgiven
    rw [ha] at hopening
    exact ⟨[], given, hopening⟩
  · obtain ⟨passed, ahead, h⟩ := h
    rcases proceeds_turn hS h with ⟨v, rest, _, hnext⟩ | ⟨_, r, hr, _⟩
    · rw [hab] at hnext
      exact ⟨_, rest, hnext⟩
    · cases hab.symm.trans hr

theorem never_diverges (hS : S.Proceeds bound Keeps) (hs : Keeps s [] given)
    (hgiven : ∃ y, (P.root bound).Passes bound P given y) {n : Nat} {a : Pause σ τ}
    (ha : P.pauseAt S s n = some a) (step : Nat) (reason : Mismatch) :
    (a.answer S P).result ≠ .error (.diverged step reason) := by
  obtain ⟨passed, ahead, h⟩ := hS.pauseAt hs hgiven ha
  rcases proceeds_turn hS h with ⟨v, _, hresult, _⟩ | ⟨hresult, _⟩
  · rw [hresult]
    nofun
  · rw [hresult]
    nofun

/-- By induction on the requests of a run. -/
theorem ends (hS : S.Proceeds bound Keeps) {x : Juncture σ τ} {r : Stop σ × Session τ}
    (hr : x.Concludes S P r) : ∀ {passed ahead : List Exchange},
      x.Follows bound P Keeps given passed ahead →
        ∃ es, EndsAlong bound P Keeps given r es := by
  induction hr with
  | ended => exact fun h => ⟨_, h.ends⟩
  | turn hturn ih =>
    intro passed ahead h
    rcases proceeds_turn hS h with ⟨v, rest, _, hnext⟩ | ⟨_, r', heq, hend⟩
    · exact ih hnext
    · rw [heq] at hturn
      cases hturn
      exact ⟨passed, hend⟩

theorem concludes (hS : S.Proceeds bound Keeps) {longest : Nat}
    (hlongest : ∀ es y, (P.root bound).Passes bound P es y → es.length ≤ longest)
    {x : Juncture σ τ} {passed ahead : List Exchange}
    (h : x.Follows bound P Keeps given passed ahead) : ∃ r, x.Concludes S P r := by
  obtain ⟨left, hleft⟩ : ∃ left, longest < left + passed.length := ⟨longest + 1, by omega⟩
  induction left generalizing x passed ahead with
  | zero =>
    have hlen := hlongest _ _ h.walked
    omega
  | succ left ih =>
    cases x with
    | inr r => exact ⟨r, .ended⟩
    | inl a =>
      rcases proceeds_turn hS h with ⟨v, rest, _, hnext⟩ | ⟨_, r, hr, _⟩
      · obtain ⟨r, hr⟩ := ih hnext (by
          rw [List.length_append, List.length_singleton]
          omega)
        exact ⟨r, .turn hr⟩
      · exact ⟨r, .turn (by rw [hr]; exact .ended)⟩

end Strategy.Proceeds
end Proceeding
end Interleave
