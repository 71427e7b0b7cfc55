import Interleave.Proofs.Layer
import Interleave.Strategy.Plan

/-!
# Interleave.Proofs.Layer.Plans

The layers that plans are made of: none at all, the liveness check, and the trace whose critical
transition is searched for, over a search or over another layer.

* `bare_over`, `watch_over`, `fork_over`: the strategies are made of these layers.
* `Plan.IsSearch`, `backtracks_of_isSearch`: the plans that go back over their paths.
* `Strategy.NeverDiverges`: random walks fit every program, whatever stands over them.
-/

namespace Interleave

section Layers

variable {σ τ ν ψ : Type}

/-- All requests are left to the search. -/
def Layer.bare : Layer Unit where
  consult _ _ scene f := (.forward, f, scene.observer)
  steps _ n := n
  full _ _ atBound := atBound

/-- The liveness check. -/
def Layer.watch : Layer Detector where
  consult r n scene d := d.consult r n scene
  steps d n := n + d.replayed
  full d _ atBound := d.chase.isNone && atBound

/-- A trace to follow before anything is left to the layer below. -/
def Layer.fork (G : Layer ψ) : Layer (Transition × ψ) where
  consult r n scene f :=
    match f.1.consult r with
    | (.reply v, t) => (.reply v, (t, f.2), scene.observer)
    | (.refuse refusal, t) => (.refuse refusal, (t, f.2), scene.observer)
    | (.forward, t) =>
      let (verdict, g, observer) := G.consult r n scene f.2
      (verdict, (t, g), observer)
  steps f n := f.1.followed + G.steps f.2 n
  full f n _ := decide (f.1.stepLimit < f.1.followed + G.steps f.2 n)

theorem fork_consult {G : Layer ψ} {r : Request} {n : Nat} {scene : Scene} {f : Transition × ψ}
    {verdict : Verdict r.Reply} {t : Transition} (h : f.1.consult r = (verdict, t)) :
    (Layer.fork G).consult r n scene f =
      match verdict with
      | .reply v => (.reply v, (t, f.2), scene.observer)
      | .refuse refusal => (.refuse refusal, (t, f.2), scene.observer)
      | .forward => ((G.consult r n scene f.2).1, (t, (G.consult r n scene f.2).2.1),
          (G.consult r n scene f.2).2.2) := by
  simp only [Layer.fork, h]
  cases verdict <;> rfl

theorem bare_consistent : Layer.bare.Consistent := by
  intro r n scene f step reason h
  cases h

theorem followCycle_forwards (r : Request) (d : Detector) (refusal : Refusal) :
    (d.followCycle r).1 ≠ .refuse refusal := by
  unfold Detector.followCycle
  repeat' split
  all_goals simp

theorem watch_consistent : Layer.watch.Consistent := by
  intro r n scene d step reason
  show (d.consult r n scene).1 ≠ _
  unfold Detector.consult
  generalize d.observe (n + d.replayed) scene = found
  obtain ⟨violation, d', o⟩ := found
  cases violation with
  | some v => simp
  | none => exact followCycle_forwards r d' _

theorem consult_consistent (r : Request) (t : Transition) (step : Nat) (reason : Mismatch) :
    (t.consult r).1 ≠ .refuse (.diverged step reason) := by
  unfold Transition.consult
  repeat' split
  all_goals simp

theorem fork_consistent {G : Layer ψ} (hG : G.Consistent) : (Layer.fork G).Consistent := by
  intro r n scene f step reason
  have ht := consult_consistent r f.1 step reason
  generalize hconsult : f.1.consult r = c at ht
  obtain ⟨verdict, t⟩ := c
  rw [fork_consult hconsult]
  cases verdict with
  | reply v => simp
  | refuse refusal => exact ht
  | forward => exact hG r n scene f.2 step reason

theorem bare_over (S : Strategy τ) : S.Over Layer.bare S (fun _ => ()) id where
  answer _ _ _ := .forwarded rfl rfl
  steps _ := rfl
  full _ := rfl
  prepare _ := rfl
  reset _ := rfl

theorem watch_over (S : Strategy τ) :
    (Watched.strategy S).Over Layer.watch S Watched.detector Watched.base where
  answer r scene s := by
    show Layer.watch.Answers S Watched.detector Watched.base r scene s (Watched.answer S r scene s)
    unfold Watched.answer
    generalize hconsult : s.detector.consult r (S.steps s.base) scene = c
    obtain ⟨verdict, d, o⟩ := c
    cases verdict with
    | reply v => exact .own hconsult rfl rfl
    | refuse refusal => exact .own hconsult rfl rfl
    | forward => exact .forwarded hconsult rfl
  steps _ := rfl
  full _ := rfl
  prepare _ := rfl
  reset _ := rfl

/-- The number of runs closed has no effect on what a run is told. -/
theorem consult_walks (r : Request) (t : Transition) (n : Nat) :
    Transition.consult r { t with walks := n } =
      ((t.consult r).1, { (t.consult r).2 with walks := n }) := by
  have hrecorded : Transition.recorded r { t with walks := n } = t.recorded r := rfl
  unfold Transition.consult
  dsimp only
  rw [hrecorded]
  repeat' split
  all_goals rfl

/-- A search for a critical transition without the number of runs closed. -/
def Forked.frame (frame : ν → ψ) (s : Forked ν) : Transition × ψ :=
  ({ s.transition with walks := 0 }, frame s.suffix)

theorem fork_over {L : Strategy ν} {G : Layer ψ} {S : Strategy τ} {frame : ν → ψ} {base : ν → τ}
    (h : L.Over G S frame base) :
    (Forked.strategy L).Over (Layer.fork G) S (Forked.frame frame) (fun s => base s.suffix) where
  answer r scene s := by
    show (Layer.fork G).Answers S (Forked.frame frame) (fun s => base s.suffix) r scene s
      (Forked.answer L r scene s)
    have hsuffix := h.answer r scene s.suffix
    have hconsult : (Forked.frame frame s).1.consult r = _ := consult_walks r s.transition 0
    unfold Forked.answer
    generalize s.transition.consult r = c at hconsult
    obtain ⟨verdict, t⟩ := c
    have hfork : ∀ n, (Layer.fork G).consult r n scene (Forked.frame frame s) = _ :=
      fun _ => fork_consult hconsult
    cases verdict with
    | reply v => exact .own (hfork _) rfl rfl
    | refuse refusal => exact .own (hfork _) rfl rfl
    | forward =>
      dsimp only at hfork ⊢
      generalize L.answer r scene s.suffix = ans at hsuffix
      cases hsuffix with
      | own hbelow hown hbase =>
        refine .own ((hfork _).trans ?_) hown hbase
        simp only [Forked.frame, hbelow]
      | forwarded hbelow hbase =>
        refine .forwarded ((hfork _).trans ?_) hbase
        simp only [Forked.frame, hbelow]
  steps s := by
    show s.transition.followed + L.steps s.suffix = _
    rw [h.steps]
    rfl
  full s := by
    show decide (s.transition.stepLimit < s.transition.followed + L.steps s.suffix) = _
    rw [h.steps]
    rfl
  prepare s := h.prepare s.suffix
  reset s := h.reset s.suffix

end Layers

namespace Plan

/-- A search that goes back over its path. -/
def IsSearch : Plan → Prop
  | depthFirst _ => True
  | partialOrder _ => True
  | _ => False

/-- Nothing is left of the path of a search, be it under the liveness check. -/
def PathIsDone : (p : Plan) → p.State → Prop
  | depthFirst _ => fun s => s.ahead = []
  | partialOrder _ => fun s => s.ahead = []
  | watch _ _ _ base => fun s => base.PathIsDone s.base
  | _ => fun _ => True

/-- The liveness check over a search is as it was at first: no cycle is being repeated, and no
window has been drawn. -/
def CheckIsNew : (p : Plan) → p.State → Prop
  | watch seed safetyPrefix threshold base => fun s =>
    base.IsSearch → s.detector = .new seed safetyPrefix threshold
  | _ => fun _ => True

theorem backtracks_of_isSearch {p : Plan} (hp : p.IsSearch) :
    ∃ bound Keeps, p.strategy.Backtracks bound Keeps ∧ Keeps p.start [] [] ∧
      ∀ s given, Keeps s [] given → p.PathIsDone s → given = [] := by
  cases p with
  | depthFirst bound =>
    refine ⟨bound, _, depthFirst_backtracks, DepthFirst.keeps_new, fun s given h hdone => ?_⟩
    have hahead := h.ahead
    rw [show s.ahead = [] from hdone] at hahead
    cases hahead
    rfl
  | partialOrder bound =>
    refine ⟨bound, _, partialOrder_backtracks, PartialOrder.walked_new, fun s given h hdone => ?_⟩
    obtain ⟨all, _, log, plan, hlogs, _, _, rfl⟩ := h
    have hahead := hlogs.ahead_eq
    rw [show s.ahead = [] from hdone, eq_comm, List.map_eq_nil_iff] at hahead
    rw [hahead]
    rfl
  | random => exact hp.elim
  | replay => exact hp.elim
  | scripted => exact hp.elim
  | watch => exact hp.elim
  | transition => exact hp.elim
  | wholeTrace => exact hp.elim

/-- A plan that consists of a layer and a search. -/
structure Layered (p : Plan) {φ τ : Type} (F : Layer φ) (S : Strategy τ) (frame : p.State → φ)
    (base : p.State → τ) (bound : Nat) (Keeps : τ → List Exchange → List Exchange → Prop) :
    Prop where
  stands : p.strategy.Over F S frame base
  consistent : F.Consistent
  backtracks : S.Backtracks bound Keeps
  start : Keeps (base p.start) [] []
  done : ∀ {s given}, Keeps (base s) [] given → p.PathIsDone s → given = []
  new : ∀ {s}, p.CheckIsNew s → frame s = frame p.start

/-- By the search that the plan is, and by the one that the liveness check stands over. -/
theorem exists_layered {p : Plan} (hp : p.IsSearch ∨
    ∃ seed safetyPrefix threshold base, p = .watch seed safetyPrefix threshold base ∧
      base.IsSearch) :
    ∃ (φ τ : Type) (F : Layer φ) (S : Strategy τ) (frame : p.State → φ) (base : p.State → τ)
      (bound : Nat) (Keeps : τ → List Exchange → List Exchange → Prop),
      p.Layered F S frame base bound Keeps := by
  rcases hp with hp | ⟨seed, safetyPrefix, threshold, base, rfl, hbase⟩
  · obtain ⟨bound, Keeps, hbacktracks, hstart, hdone⟩ := backtracks_of_isSearch hp
    exact ⟨_, _, _, _, _, _, bound, Keeps, bare_over _, bare_consistent, hbacktracks, hstart,
      fun h => hdone _ _ h, fun _ => rfl⟩
  · obtain ⟨bound, Keeps, hbacktracks, hstart, hdone⟩ := backtracks_of_isSearch hbase
    exact ⟨_, _, _, _, _, _, bound, Keeps, watch_over _, watch_consistent, hbacktracks, hstart,
      fun h => hdone _ _ h, fun h => h hbase⟩

end Plan

section Diverging

variable {σ φ ν τ : Type}

/-- No request is refused as one that differs from a schedule. -/
def Strategy.NeverDiverges (S : Strategy τ) : Prop :=
  ∀ r scene s step reason, (S.answer r scene s).result ≠ .error (.diverged step reason)

theorem randomWalk_neverDiverges : RandomWalk.strategy.NeverDiverges := by
  intro r scene s step reason
  show (s.reply r).1 ≠ _
  cases r with
  | unit candidates current =>
    simp only [RandomWalk.reply]
    split <;> simp
  | boolean max => simp [RandomWalk.reply]
  | integer max => simp [RandomWalk.reply]

theorem Strategy.Over.neverDiverges {L : Strategy ν} {F : Layer φ} {S : Strategy τ}
    {frame : ν → φ} {base : ν → τ} (h : L.Over F S frame base) (hF : F.Consistent)
    (hS : S.NeverDiverges) : L.NeverDiverges := by
  intro r scene s step reason
  have hans := h.answer r scene s
  generalize L.answer r scene s = ans at hans
  cases hans with
  | own hconsult hown _ => exact hF.own hconsult hown step reason
  | forwarded _ _ => exact hS _ _ _ step reason

/-- A configuration selects a random walk or a search, with the liveness check over it or not. -/
theorem plan_fits {c : Configuration} {drawn : UInt64} {p : Plan} (hp : c.plan drawn = .ok p) :
    p.strategy.NeverDiverges ∨
    ∃ (φ τ : Type) (F : Layer φ) (S : Strategy τ) (frame : p.State → φ) (base : p.State → τ)
      (bound : Nat) (Keeps : τ → List Exchange → List Exchange → Prop),
      p.Layered F S frame base bound Keeps := by
  have hbase : ∀ {base}, c.basePlan drawn = .ok base →
      base.strategy.NeverDiverges ∨ base.IsSearch := by
    intro base h
    unfold Configuration.basePlan at h
    split at h
    · cases h
      exact .inl randomWalk_neverDiverges
    · cases h
      exact .inr trivial
    · cases h
      exact .inr trivial
    · cases h
  unfold Configuration.plan at hp
  generalize c.basePlan drawn = selected at hp hbase
  cases selected with
  | error fault => cases hp
  | ok base =>
    cases hdetect : c.detectCycles with
    | false =>
      simp only [Except.map, hdetect] at hp
      cases hp
      exact (hbase rfl).imp_right fun h => Plan.exists_layered (.inl h)
    | true =>
      simp only [Except.map, hdetect] at hp
      cases hp
      exact (hbase rfl).imp (fun h => (watch_over _).neverDiverges watch_consistent h)
        fun h => Plan.exists_layered (.inr ⟨_, _, _, _, rfl, h⟩)

theorem consistent_of_neverDiverges {L : Strategy ν} {P : Program σ} (hL : L.NeverDiverges)
    {x : Juncture σ ν} {r : Stop σ × Session ν} (hr : x.Concludes L P r) :
    x.session.divergence = none → r.2.divergence = none := by
  induction hr with
  | ended => exact id
  | @turn a r _ ih =>
    intro h
    exact ih ((turn_divergence fun step reason => hL _ _ _ step reason).trans h)

end Diverging
end Interleave
