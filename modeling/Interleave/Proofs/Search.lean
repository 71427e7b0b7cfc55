import Interleave.Proofs.Exchange

/-!
# Interleave.Proofs.Search

Strategies that keep a path of exchanges: a run follows the path that it is given, goes on beyond
its end with replies of its own, and remembers the exchanges made. `Strategy.Follows` says so of
single answers, without a program; `Follows.run` is what becomes of it along a run: a walk from the
root of the choice tree, along the given path, down to a leaf.

What a strategy can answer may depend on what it has been asked: `allowed` holds of the lists of
exchanges that the law covers.
-/

namespace Interleave

/-- An element of one list and the one at its place in the other. -/
theorem forall₂_split {α β : Type} {R : α → β → Prop} {xs ys : List α} {x : α} :
    ∀ {zs : List β}, List.Forall₂ R (xs ++ x :: ys) zs →
      ∃ xs' x' ys', zs = xs' ++ x' :: ys' ∧ List.Forall₂ R xs xs' ∧ R x x' ∧
        List.Forall₂ R ys ys' := by
  induction xs with
  | nil =>
    intro zs h
    cases h with
    | cons hx hys => exact ⟨[], _, _, rfl, .nil, hx, hys⟩
  | cons w xs ih =>
    intro zs h
    cases h with
    | @cons _ w' _ zs hw h =>
      obtain ⟨xs', x', ys', rfl, hxs, hx, hys⟩ := ih h
      exact ⟨w' :: xs', x', ys', rfl, .cons hw hxs, hx, hys⟩

section Search

variable {σ τ : Type}

/-- A strategy leaves the observer alone, and is at its bound when it has made so many exchanges. -/
structure Strategy.Counts (S : Strategy τ) (bound : Nat)
    (Keeps : τ → List Exchange → List Exchange → Prop) : Prop where
  blind : ∀ r scene s, (S.answer r scene s).observer = scene.observer
  atBound : ∀ {s passed ahead}, Keeps s passed ahead →
    S.atBound s = boundReached bound passed.length

/-- Answers follow the path of a state and extend it at its end. `Keeps s passed ahead` says that a
run has made the exchanges `passed` and is still to follow the exchanges `ahead`. -/
structure Strategy.Follows (S : Strategy τ) (bound : Nat) (allowed : List Exchange → Prop)
    (Keeps : τ → List Exchange → List Exchange → Prop) : Prop where
  blind : ∀ r scene s, (S.answer r scene s).observer = scene.observer
  atBound : ∀ {s passed ahead}, Keeps s passed ahead →
    S.atBound s = boundReached bound passed.length
  follow : ∀ {s passed e ahead} scene, Keeps s passed (e :: ahead) → allowed (passed ++ [e]) →
    (S.answer e.request scene s).result = .ok e.reply ∧
      Keeps (S.answer e.request scene s).state (passed ++ [e]) ahead
  extend : ∀ {s passed} (r : Request) scene, Keeps s passed [] → r.replies ≠ [] →
    (∀ v ∈ r.replies, allowed (passed ++ [⟨r, v⟩])) →
    ∃ v ∈ r.replies, (S.answer r scene s).result = .ok v ∧
      Keeps (S.answer r scene s).state (passed ++ [⟨r, v⟩]) []

variable {S : Strategy τ} {bound : Nat} {P : Program σ} {allowed : List Exchange → Prop}
  {Keeps : τ → List Exchange → List Exchange → Prop}

theorem Strategy.Follows.counts (hS : S.Follows bound allowed Keeps) : S.Counts bound Keeps :=
  ⟨hS.blind, hS.atBound⟩

/-- A run that follows the given exchanges as far as they go. -/
structure Juncture.Follows (bound : Nat) (P : Program σ)
    (Keeps : τ → List Exchange → List Exchange → Prop) (given : List Exchange)
    (x : Juncture σ τ) (passed ahead : List Exchange) : Prop where
  keeps : Keeps x.session.strategy passed ahead
  walked : (P.root bound).Passes bound P passed x.forget
  todo : ∃ y, x.forget.Passes bound P ahead y
  given : ∃ new, passed ++ ahead = given ++ new
  waiting : ∀ a, x = .inl a → (a.place.request P).replies ≠ []

theorem Pause.Open.replies_ne_nil {full : Session τ → Bool} {a : Pause σ τ}
    (h : a.Open full P) : (a.place.request P).replies ≠ [] :=
  List.length_pos_iff.1 (length_replies_pos (nothingEnabled_of_open h))

theorem turn_waiting {a : Pause σ τ} :
    ∀ b, a.turn S P = .inl b → (b.place.request P).replies ≠ [] := by
  intro b hb
  obtain ⟨_, _, _, _, _, hopen⟩ := turn_eq_inl hb
  exact hopen.replies_ne_nil

/-- A reply by which a strategy keeps its path carries the run down the tree. -/
theorem forget_turn (hS : S.Counts bound Keeps) {a : Pause σ τ}
    {v : (a.place.request P).Reply} {passed ahead : List Exchange}
    (hwalked : (P.root bound).Passes bound P passed (.inl ⟨a.place, a.session.forget⟩))
    (hresult : (a.answer S P).result = .ok v)
    (hkeeps : Keeps (a.answer S P).state (passed ++ [⟨a.place.request P, v⟩]) ahead) :
    (a.turn S P).forget = Pause.take bound P ⟨a.place, a.session.forget⟩ v := by
  have hobserver : (a.answered S P).forget = a.session.forget := by
    simp only [Session.forget, Pause.answered, Pause.answer, hS.blind, Session.scene]
  have hlength : passed.length = a.session.trace.length := by
    have hlen := hwalked.length_trace
    have hroot : (P.root bound).session.trace = .empty := (settle_framed _ P _ _).trace
    rw [hroot] at hlen
    simpa [Juncture.session, Session.forget] using hlen.symm
  unfold Pause.turn
  rw [hresult, Pause.take, ← hobserver]
  refine forget_resume a.place v _ fun t hs ht => ?_
  have htrace : t.trace.length = a.session.trace.length + 1 := by
    rw [ht, Trace.length_push]
    rfl
  show S.atBound t.strategy = boundReached bound t.trace.length
  rw [hs, htrace]
  show S.atBound (a.answer S P).state = _
  rw [hS.atBound hkeeps, List.length_append, hlength]
  rfl

/-- A reply that is the next one of the path, or one beyond its end, leaves the run on the path. -/
theorem Juncture.Follows.reply (hS : S.Counts bound Keeps) {given : List Exchange} {a : Pause σ τ}
    {passed ahead rest : List Exchange} {v : (a.place.request P).Reply}
    (h : Juncture.Follows bound P Keeps given (.inl a) passed ahead)
    (hv : v ∈ (a.place.request P).replies) (hresult : (a.answer S P).result = .ok v)
    (hkeeps : Keeps (a.answer S P).state (passed ++ [⟨a.place.request P, v⟩]) rest)
    (hhere : ahead = ⟨a.place.request P, v⟩ :: rest ∨ ahead = [] ∧ rest = []) :
    (a.turn S P).Follows bound P Keeps given (passed ++ [⟨a.place.request P, v⟩]) rest := by
  have hforget := forget_turn hS h.walked hresult hkeeps
  obtain ⟨new, hgiven⟩ := h.given
  refine ⟨by rwa [turn_strategy], ?_, ?_, ?_, turn_waiting⟩
  · rw [hforget]
    exact h.walked.append (.cons hv .nil)
  · rw [hforget]
    rcases hhere with rfl | ⟨_, rfl⟩
    · obtain ⟨y, htodo⟩ := h.todo
      obtain ⟨w, _, heq, hrest⟩ := htodo.of_inl
      cases heq
      exact ⟨y, hrest⟩
    · exact ⟨_, .nil⟩
  · rcases hhere with rfl | ⟨rfl, rfl⟩
    · exact ⟨new, by simpa using hgiven⟩
    · rw [List.append_nil] at hgiven
      exact ⟨new ++ [⟨a.place.request P, v⟩], by simp [hgiven]⟩

theorem follows_turn (hS : S.Follows bound allowed Keeps)
    (hallowed : ∀ es y, (P.root bound).Passes bound P es y → allowed es) {given : List Exchange}
    {a : Pause σ τ} {passed ahead : List Exchange}
    (h : Juncture.Follows bound P Keeps given (.inl a) passed ahead) :
    ∃ e ahead', (a.turn S P).Follows bound P Keeps given (passed ++ [e]) ahead' := by
  have hmay : ∀ v ∈ (a.place.request P).replies, allowed (passed ++ [⟨a.place.request P, v⟩]) :=
    fun v hv => hallowed _ _ (h.walked.append (.cons hv .nil))
  cases ahead with
  | nil =>
    obtain ⟨v, hv, hresult, hkeeps⟩ := hS.extend (a.place.request P) a.session.scene h.keeps
      (h.waiting a rfl) hmay
    exact ⟨_, [], h.reply hS.counts hv hresult hkeeps (.inr ⟨rfl, rfl⟩)⟩
  | cons e ahead =>
    obtain ⟨y, htodo⟩ := h.todo
    obtain ⟨v, hv, rfl, _⟩ := htodo.of_inl
    obtain ⟨hresult, hkeeps⟩ := hS.follow a.session.scene h.keeps (hmay v hv)
    exact ⟨_, ahead, h.reply hS.counts hv hresult hkeeps (.inl rfl)⟩

/-- A run ends, since each request makes its walk longer. -/
theorem follows_concludes (hS : S.Follows bound allowed Keeps)
    (hallowed : ∀ es y, (P.root bound).Passes bound P es y → allowed es)
    (hfinite : ((P.root bound).walks bound P).Finite) {given : List Exchange}
    {x : Juncture σ τ} {passed ahead : List Exchange}
    (h : x.Follows bound P Keeps given passed ahead) :
    ∃ r es, x.Concludes S P r ∧ Juncture.Follows bound P Keeps given (.inr r) es [] := by
  obtain ⟨longest, hlongest⟩ := exists_longest hfinite
  obtain ⟨left, hleft⟩ : ∃ left, longest < left + passed.length := ⟨longest + 1, by omega⟩
  induction left generalizing x passed ahead with
  | zero =>
    have hlen := hlongest _ _ h.walked
    omega
  | succ left ih =>
    cases x with
    | inr r =>
      obtain ⟨y, htodo⟩ := h.todo
      have hahead := htodo.of_inr.1
      subst hahead
      exact ⟨r, passed, .ended, h⟩
    | inl a =>
      obtain ⟨e, ahead', hnext⟩ := follows_turn hS hallowed h
      obtain ⟨r, es, hr, hend⟩ := ih hnext (by
        rw [List.length_append, List.length_singleton]
        omega)
      exact ⟨r, es, .turn hr, hend⟩

theorem Strategy.Counts.opening (hS : S.Counts bound Keeps) {s : τ}
    {given : List Exchange} (hs : Keeps s [] given)
    (hgiven : ∃ y, (P.root bound).Passes bound P given y) :
    (P.opening S s).Follows bound P Keeps given [] given := by
  have hstrategy : (P.opening S s).session.strategy = s := (settle_framed S.isFull P _ _).strategy
  have hforget : (P.opening S s).forget = P.root bound := by
    refine forget_settle _ _ fun t ht htrace => ?_
    show S.atBound t.strategy = boundReached bound t.trace.length
    rw [ht, htrace]
    exact hS.atBound hs
  refine ⟨by rwa [hstrategy], ?_, by rwa [hforget], ⟨[], by simp⟩, fun a ha => ?_⟩
  · rw [hforget]
    exact .nil
  · exact (settle_open S.isFull P (fun _ _ => rfl) _ _ a ha).replies_ne_nil

/-- A run from a given path is a walk along it and on to a leaf of the tree. -/
theorem Strategy.Follows.run (hS : S.Follows bound allowed Keeps)
    (hallowed : ∀ es y, (P.root bound).Passes bound P es y → allowed es)
    (hfinite : ((P.root bound).walks bound P).Finite) {s : τ} {given : List Exchange}
    (hs : Keeps s [] given) (hgiven : ∃ y, (P.root bound).Passes bound P given y) :
    ∃ r new, (P.opening S s).Concludes S P r ∧ Keeps r.2.strategy (given ++ new) [] ∧
      (P.root bound).Passes bound P (given ++ new) (.inr (r.1, r.2.forget)) := by
  obtain ⟨r, es, hr, hend⟩ := follows_concludes hS hallowed hfinite (hS.counts.opening hs hgiven)
  obtain ⟨new, hnew⟩ := hend.given
  rw [List.append_nil] at hnew
  subst hnew
  exact ⟨r, new, hr, hend.keeps, hend.walked⟩

end Search
end Interleave
