import Interleave.Proofs.Schedule.Relay

/-!
# Interleave.Proofs.PartialOrder.Saturation

What becomes of a search whose clocks no longer count. Once the count of a unit is at its largest,
a step of the unit cannot be told from the one before: a clock that has joined one of them has
joined both, and no race with the later one is found.

* `Schedules`: a search schedules units one after the other, in a program whose handlers just
  finish; `Schedules.drive` is the run that it makes.
* `Stage`: the part of a search that its answers depend on; `Stage.visit` is one answer.
* `climb_schedules`: by induction on the steps of the first unit of a relay.
* `relay_missed`: a search leaves out a schedule of a relay in which that unit runs too often.
* `schedules_missed`: neither can a panic or such a unit be allowed where all schedules are to be
  covered.
-/

namespace Interleave

section Schedules

variable {σ : Type} {P : Program σ}

/-- Units whose handlers finish at once are scheduled one after the other. -/
inductive Schedules (P : Program σ) : σ → PartialOrder → List UnitId → σ → PartialOrder → Prop where
  | nil (p : σ) (s : PartialOrder) : Schedules P p s [] p s
  | cons {p p' q : σ} {s s' t : PartialOrder} {u : UnitId} {us : List UnitId} : s.bound = 0 →
      s.visitUnit (P.units p) = (.ok u, s') → P.execute u p = .finish p' →
      Schedules P p' s' us q t → Schedules P p s (u :: us) q t

variable {p q r : σ} {s t t' : PartialOrder} {us vs : List UnitId}

theorem Schedules.append (h : Schedules P p s us q t) (h' : Schedules P q t vs r t') :
    Schedules P p s (us ++ vs) r t' := by
  induction h with
  | nil p s => exact h'
  | cons hbound hvisit hfinish _ ih => exact .cons hbound hvisit hfinish (ih h')

theorem enabled_of_visitUnit {candidates : List Candidate} {u : UnitId}
    (h : s.visitUnit candidates = (.ok u, t)) : (enabledIds candidates).isEmpty = false := by
  cases hempty : (enabledIds candidates).isEmpty with
  | false => rfl
  | true =>
    unfold PartialOrder.visitUnit at h
    split at h
    · cases h
    · rw [if_pos hempty] at h
      cases h

/-- A run that schedules units up to where none is enabled leaves them as its trace. -/
theorem Schedules.concludes (h : Schedules P p s us q t) (hrest : enabledIds (P.units q) = []) :
    ∀ x : Session PartialOrder, x.strategy = s → x.halted = false →
      ∃ r, (P.offer PartialOrder.strategy.isFull p x).Concludes PartialOrder.strategy P r ∧
        r.2.strategy = t ∧ r.2.trace.toList = x.trace.toList ++ us.map .unit := by
  induction h with
  | nil q t =>
    intro x hx hrunning
    refine ⟨(.ended .quiescent q, x), ?_, hx, by simp⟩
    simp only [Program.offer, hrunning, hrest]
    exact .ended
  | @cons p p' q s s' t u us hbound hvisit hfinish _ ih =>
    intro x hx hrunning
    have hfull : PartialOrder.strategy.isFull x = false := by
      show boundReached x.strategy.bound x.strategy.depth = false
      rw [hx, hbound]
      rfl
    have hoffer : P.offer PartialOrder.strategy.isFull p x =
        .inl ⟨.scheduling p, { x with offered := P.units p }⟩ := by
      simp [Program.offer, Program.schedule, hrunning, enabled_of_visitUnit hvisit, hfull]
    have hturn : (Pause.mk (.scheduling p) { x with offered := P.units p }).turn
          PartialOrder.strategy P =
        P.offer PartialOrder.strategy.isFull p' (Session.record P (.scheduling p) u
          { x with offered := P.units p, strategy := s' }) := by
      have hanswer : x.strategy.visitUnit (P.units p) = (.ok u, s') := hx ▸ hvisit
      unfold Pause.turn Pause.answered Pause.answer
      show P.resume _ (.scheduling p) (x.strategy.visitUnit (P.units p)).1
        { x with offered := P.units p, strategy := (x.strategy.visitUnit (P.units p)).2 } = _
      rw [hanswer]
      show P.settle _ (P.execute u p) _ = _
      rw [hfinish]
      rfl
    obtain ⟨r, hr, hstrategy, htrace⟩ := ih hrest
      (Session.record P (.scheduling p) u { x with offered := P.units p, strategy := s' }) rfl
      hrunning
    refine ⟨r, ?_, hstrategy, ?_⟩
    · rw [hoffer]
      exact .turn (by rw [hturn]; exact hr)
    · rw [htrace, Session.record_trace, Trace.toList_push]
      simp [Place.choice]

theorem Schedules.drive (h : Schedules P p s us q t) (hstart : P.start P.fresh = .finish p)
    (hrest : enabledIds (P.units q) = []) :
    ∃ fuel r, Session.drive fuel PartialOrder.strategy P s = some r ∧ r.2.strategy = t ∧
      r.2.trace.toList = us.map .unit := by
  obtain ⟨r, hr, hstrategy, htrace⟩ := h.concludes hrest (.new s) rfl rfl
  have hopening : P.opening PartialOrder.strategy s =
      P.offer PartialOrder.strategy.isFull p (.new s) := by
    rw [Program.opening, hstart]
    rfl
  obtain ⟨fuel, hdrive⟩ := drive_eq_some_iff.2 (hopening ▸ hr)
  exact ⟨fuel, r, hdrive, hstrategy, htrace⟩

end Schedules

namespace PartialOrder

/-- A search with these units, on this path; what it has counted does not matter. -/
structure Stage (s : PartialOrder) (tracked : List Tracked) (passed : List Visit)
    (ahead : List Fork) : Prop where
  bound_eq : s.bound = 0
  tracked_eq : s.tracked = tracked
  passed_eq : s.passed = passed
  ahead_eq : s.ahead = ahead

def clockOf (tracked : List Tracked) (slot : Nat) : Clock :=
  (tracked[slot]?.map (·.clock)).getD .zero

/-- The clock of a step of a slot after the steps of a path. -/
def clockAfter (slot : Nat) (pre : Clock) (passed : List Visit) : Clock :=
  ((passed.filterMap (Visit.eventBefore? slot (some ⟨9⟩))).foldl (fun c e => c.merge e.clock)
    pre).tick slot

theorem clockAfter_cons {slot : Nat} {e : Event} (h : e.dependsOn slot (some ⟨9⟩) = true)
    (pre : Clock) (b : Branch) (passed : List Visit) :
    clockAfter slot pre (.step b e :: passed) = clockAfter slot (pre.merge e.clock) passed := by
  have hbefore : Visit.eventBefore? slot (some ⟨9⟩) (.step b e) = some e := if_pos h
  rw [clockAfter, List.filterMap_cons_some hbefore]
  rfl

theorem le_count_clockAfter {slot other : Nat} (h : other ≠ slot) (pre : Clock)
    (passed : List Visit) : pre.count other ≤ (clockAfter slot pre passed).count other := by
  rw [clockAfter, Clock.count_tick_of_ne h]
  exact (Clock.count_foldl_merge _ _ _).1

theorem Stage.visit {s : PartialOrder} {tracked : List Tracked} {passed : List Visit}
    {ahead : List Fork} (h : s.Stage tracked passed ahead) (candidates : List Candidate)
    (u : UnitId) (b : Branch) (tracked' : List Tracked) (rest : List Fork)
    (hvisit : ∀ depth explored races maxDepth,
      visitUnit candidates ⟨0, tracked, passed, ahead, depth, explored, races, maxDepth⟩ =
        (.ok u, commit b (some ⟨9⟩) rest
          ⟨0, tracked', passed, ahead, depth, explored, races, maxDepth⟩)) :
    ∃ t, s.visitUnit candidates = (.ok u, t) ∧ t.Stage
      (tracked'.modify b.chosen fun x =>
        { x with clock := clockAfter b.chosen (clockOf tracked' b.chosen) passed })
      (.step { b with tried := b.tried.insert b.chosen }
          ⟨b.chosen, some ⟨9⟩, clockAfter b.chosen (clockOf tracked' b.chosen) passed⟩ ::
        passed.map (Visit.mark b.chosen (some ⟨9⟩) (clockOf tracked' b.chosen))) rest := by
  obtain ⟨bound, _, _, _, depth, explored, races, maxDepth⟩ := s
  obtain ⟨rfl, rfl, rfl, rfl⟩ := h
  exact ⟨_, hvisit _ _ _ _, rfl, rfl, passed_commit _ _ _ _, rfl⟩

theorem trackAll_cons {s s' : PartialOrder} {u : UnitId} {slot : Nat}
    (h : s.track? u = some (slot, s')) (found : SlotSet) (rest : List UnitId) :
    s.trackAll found (u :: rest) = s'.trackAll (found.insert slot) rest := by
  rw [trackAll, h]

/-- Unit 1 gets the first slot. -/
theorem trackAll_first (passed : List Visit) (ahead : List Fork)
    (depth explored races maxDepth : Nat) :
    trackAll ⟨0, [], passed, ahead, depth, explored, races, maxDepth⟩ .empty [⟨1⟩] =
      (some ⟨1⟩, ⟨0, [⟨⟨1⟩, .zero⟩], passed, ahead, depth, explored, races, maxDepth⟩) :=
  trackAll_cons (show _ = some (0, _) from rfl) _ _

/-- Unit 2 gets the second slot. -/
theorem trackAll_second (c : Clock) (passed : List Visit) (ahead : List Fork)
    (depth explored races maxDepth : Nat) :
    trackAll ⟨0, [⟨⟨1⟩, c⟩], passed, ahead, depth, explored, races, maxDepth⟩ .empty [⟨1⟩, ⟨2⟩] =
      (some ⟨3⟩, ⟨0, [⟨⟨1⟩, c⟩, ⟨⟨2⟩, .zero⟩], passed, ahead, depth, explored, races,
        maxDepth⟩) :=
  (trackAll_cons (show _ = some (0, _) from rfl) _ _).trans
    (trackAll_cons (show _ = some (1, _) from rfl) _ _)

/-- Only unit 1 is enabled, and it has been taken. -/
def forced : Branch := ⟨⟨1⟩, ⟨1⟩, ⟨1⟩, 0⟩

/-- The clock of unit 1 when it has run alone. -/
def ticks : Nat → Clock
  | 0 => .zero
  | k + 1 => (ticks k).tick 0

/-- The steps of unit 1 while no other unit is enabled. -/
def climb : Nat → List Visit
  | 0 => []
  | k + 1 => .step forced ⟨0, some ⟨9⟩, ticks (k + 1)⟩ :: climb k

theorem count_ticks (k : Nat) : (ticks k).count 0 = min k (2 ^ 32 - 1) := by
  induction k with
  | zero => simp [ticks]
  | succ k ih =>
    rw [ticks, Clock.count_tick_self (by decide), ih]
    omega

theorem count_ticks_other {other : Nat} (h : other ≠ 0) (k : Nat) : (ticks k).count other = 0 := by
  induction k with
  | zero => simp [ticks]
  | succ k ih => rw [ticks, Clock.count_tick_of_ne h, ih]

theorem mark_of_widen {slot : Nat} {b : Branch} (h : b.widen slot = b) (e : Event)
    (target : Option UnitId) (pre : Clock) : (Visit.step b e).mark slot target pre = .step b e := by
  rw [Visit.mark, h, ite_self]

theorem mark_of_dominatedBy {e : Event} {pre : Clock} (h : e.clock.dominatedBy pre = true)
    (slot : Nat) (target : Option UnitId) (b : Branch) :
    (Visit.step b e).mark slot target pre = .step b e := by
  have hrace : e.racesWith slot target pre = false := by
    rw [Event.racesWith, h]
    exact Bool.and_false _
  rw [Visit.mark, if_neg (by rw [hrace]; decide)]

/-- Where unit 1 alone is enabled, a race adds nothing to try. -/
theorem mark_climb {slot : Nat} (hslot : forced.widen slot = forced) (pre : Clock) (k : Nat) :
    (climb k).map (Visit.mark slot (some ⟨9⟩) pre) = climb k := by
  induction k with
  | zero => rfl
  | succ k ih => rw [climb, List.map_cons, ih, mark_of_widen hslot]

/-- Unit 1 does not depend on its own steps. -/
theorem eventBefore?_climb (k : Nat) :
    (climb k).filterMap (Visit.eventBefore? 0 (some ⟨9⟩)) = [] := by
  induction k with
  | zero => rfl
  | succ k ih => rw [climb, List.filterMap_cons_none rfl, ih]

theorem clockAfter_climb (k : Nat) : clockAfter 0 (ticks k) (climb k) = ticks (k + 1) := by
  rw [clockAfter, eventBefore?_climb]
  rfl

/-- A step of unit 2 joins the clock of the last step of unit 1. -/
theorem count_clockAfter_climb (k : Nat) :
    (ticks (k + 1)).count 0 ≤ (clockAfter 1 .zero (climb (k + 1))).count 0 := by
  rw [climb, clockAfter_cons rfl]
  refine Nat.le_trans ?_ (le_count_clockAfter (by decide) _ _)
  rw [Clock.count_merge]
  exact Nat.le_max_right _ _

/-- A clock in which unit 1 is at its largest count dominates that of a step of unit 1 after it. -/
theorem dominatedBy_of_full {c : Clock} (hc : c.count 0 = 2 ^ 32 - 1) (b : Branch) (k : Nat) :
    (clockAfter 0 (ticks k) (.step b ⟨1, some ⟨9⟩, c⟩ :: climb k)).dominatedBy c = true := by
  refine Clock.dominatedBy_of_count_le fun slot => ?_
  rw [clockAfter_cons rfl, clockAfter, eventBefore?_climb, List.foldl_nil]
  rcases Nat.eq_zero_or_pos slot with rfl | hslot
  · rw [hc, Clock.count_tick_self (by decide)]
    exact Nat.min_le_right _ _
  · rw [Clock.count_tick_of_ne (by omega), Clock.count_merge, count_ticks_other (by omega)]
    exact Nat.max_le.2 ⟨Nat.zero_le _, Nat.le_refl _⟩

variable {s : PartialOrder} {n : Nat}

theorem climb_visit {k : Nat} {tracked rest : List Tracked} {ahead ahead' : List Fork}
    (h : s.Stage tracked (climb k) ahead)
    (htracked : tracked = ⟨⟨1⟩, ticks k⟩ :: rest ∨ k = 0 ∧ tracked = [] ∧ rest = [])
    (hahead : ahead = [] ∧ ahead' = [] ∨ ahead = .branch forced :: ahead') :
    ∃ t, s.visitUnit (runners true false) = (.ok ⟨1⟩, t) ∧
      t.Stage (⟨⟨1⟩, ticks (k + 1)⟩ :: rest) (climb (k + 1)) ahead' := by
  have hvisit : ∃ b : Branch, b.chosen = 0 ∧ { b with tried := b.tried.insert b.chosen } = forced ∧
      ∀ depth explored races maxDepth,
        visitUnit (runners true false)
            ⟨0, tracked, climb k, ahead, depth, explored, races, maxDepth⟩ =
          (.ok ⟨1⟩, commit b (some ⟨9⟩) ahead'
            ⟨0, ⟨⟨1⟩, ticks k⟩ :: rest, climb k, ahead, depth, explored, races, maxDepth⟩) := by
    rcases htracked with rfl | ⟨rfl, rfl, rfl⟩ <;> rcases hahead with ⟨rfl, rfl⟩ | rfl
    · exact ⟨⟨⟨1⟩, ⟨1⟩, .empty, 0⟩, rfl, rfl, fun _ _ _ _ => rfl⟩
    · exact ⟨forced, rfl, rfl, fun _ _ _ _ => rfl⟩
    · refine ⟨⟨⟨1⟩, ⟨1⟩, .empty, 0⟩, rfl, rfl, fun _ _ _ _ => ?_⟩
      rw [visitUnit, show enabledIds (runners true false) = [⟨1⟩] from rfl, trackAll_first]
      rfl
    · refine ⟨forced, rfl, rfl, fun _ _ _ _ => ?_⟩
      rw [visitUnit, show enabledIds (runners true false) = [⟨1⟩] from rfl, trackAll_first]
      rfl
  obtain ⟨b, hchosen, hb, hvisit⟩ := hvisit
  obtain ⟨t, ht, hstage⟩ := h.visit _ _ _ _ _ hvisit
  refine ⟨t, ht, ?_⟩
  rw [hb, hchosen, mark_climb rfl] at hstage
  rw [show clockOf (⟨⟨1⟩, ticks k⟩ :: rest) 0 = ticks k from rfl, clockAfter_climb] at hstage
  exact hstage

/-- A visit is a step of the schedule. -/
theorem Stage.schedules {tracked : List Tracked} {passed : List Visit} {ahead : List Fork}
    {i j : Nat} {first second : Bool} {u : UnitId} {t : PartialOrder}
    (h : s.Stage tracked passed ahead) (hfirst : decide (i ≤ n) = first)
    (hsecond : decide (n ≤ i ∧ j < 2) = second)
    (hvisit : s.visitUnit (runners first second) = (.ok u, t)) :
    Schedules (relay n) (i, j) s [u] (if u = ⟨1⟩ then (i + 1, j) else (i, j + 1)) t :=
  .cons h.bound_eq (by rw [relay_units, hfirst, hsecond, hvisit]) rfl (.nil _ _)

/-- Unit 1 is scheduled until unit 2 is enabled, along the path or beyond its end. -/
theorem climb_schedules {tracked rest : List Tracked} {ahead last : List Fork}
    (h : s.Stage tracked [] ahead)
    (htracked : tracked = ⟨⟨1⟩, .zero⟩ :: rest ∨ tracked = [] ∧ rest = [])
    (hahead : ahead = [] ∧ last = [] ∨ ahead = List.replicate n (.branch forced) ++ last) :
    ∀ k ≤ n, ∃ t tracked' ahead', Schedules (relay n) (0, 0) s (List.replicate k ⟨1⟩) (k, 0) t ∧
      t.Stage tracked' (climb k) ahead' ∧
      (tracked' = ⟨⟨1⟩, ticks k⟩ :: rest ∨ k = 0 ∧ tracked' = [] ∧ rest = []) ∧
      (ahead' = [] ∧ last = [] ∨ ahead' = List.replicate (n - k) (.branch forced) ++ last) := by
  intro k
  induction k with
  | zero =>
    intro _
    exact ⟨s, tracked, ahead, .nil _ _, h, htracked.imp_right fun h => ⟨rfl, h⟩, hahead⟩
  | succ k ih =>
    intro hk
    obtain ⟨t, tracked', ahead', hschedules, hstage, htracked', hahead'⟩ := ih (by omega)
    obtain ⟨ahead'', hforced, hrest⟩ : ∃ ahead'',
        (ahead' = [] ∧ ahead'' = [] ∨ ahead' = .branch forced :: ahead'') ∧
        (ahead'' = [] ∧ last = [] ∨
          ahead'' = List.replicate (n - (k + 1)) (.branch forced) ++ last) := by
      rcases hahead' with ⟨hnil, hlast⟩ | hahead'
      · exact ⟨[], .inl ⟨hnil, rfl⟩, .inl ⟨rfl, hlast⟩⟩
      · rw [show n - k = n - (k + 1) + 1 by omega, List.replicate_succ, List.cons_append] at hahead'
        exact ⟨_, .inr hahead', .inr rfl⟩
    obtain ⟨t', ht', hstage'⟩ := climb_visit hstage htracked' hforced
    refine ⟨t', _, ahead'', ?_, hstage', .inl rfl, hrest⟩
    rw [List.replicate_succ']
    exact hschedules.append (hstage.schedules (by simp; omega) (by simp; omega) ht')

/-- Both units are enabled, and only unit 1 has been thought of. -/
def newcomer : Branch := ⟨⟨3⟩, ⟨1⟩, ⟨1⟩, 0⟩

/-- Both units are enabled, and both are to be tried. -/
def shared (tried : SlotSet) (chosen : Nat) : Branch := ⟨⟨3⟩, ⟨3⟩, tried, chosen⟩

/-- Only unit 2 is enabled, and it has been taken. -/
def final : Branch := ⟨⟨2⟩, ⟨2⟩, ⟨2⟩, 1⟩

section Visits

variable {c c' : Clock} {passed : List Visit}

theorem newcomer_visit (h : s.Stage [⟨⟨1⟩, c⟩] passed [] ∧ c' = .zero ∨
    s.Stage [⟨⟨1⟩, c⟩, ⟨⟨2⟩, c'⟩] passed []) :
    ∃ t, s.visitUnit (runners true true) = (.ok ⟨1⟩, t) ∧
      t.Stage [⟨⟨1⟩, clockAfter 0 c passed⟩, ⟨⟨2⟩, c'⟩]
        (.step newcomer ⟨0, some ⟨9⟩, clockAfter 0 c passed⟩ ::
          passed.map (Visit.mark 0 (some ⟨9⟩) c)) [] := by
  rcases h with ⟨h, rfl⟩ | h
  · refine h.visit (runners true true) ⟨1⟩ ⟨⟨3⟩, ⟨1⟩, .empty, 0⟩ [⟨⟨1⟩, c⟩, ⟨⟨2⟩, .zero⟩] []
      fun _ _ _ _ => ?_
    rw [visitUnit, show enabledIds (runners true true) = [⟨1⟩, ⟨2⟩] from rfl, trackAll_second]
    rfl
  · exact h.visit (runners true true) ⟨1⟩ ⟨⟨3⟩, ⟨1⟩, .empty, 0⟩ [⟨⟨1⟩, c⟩, ⟨⟨2⟩, c'⟩] []
      fun _ _ _ _ => rfl

theorem shared_visit (h : s.Stage [⟨⟨1⟩, c⟩, ⟨⟨2⟩, c'⟩] passed [.branch (shared ⟨1⟩ 1)]) :
    ∃ t, s.visitUnit (runners true true) = (.ok ⟨2⟩, t) ∧
      t.Stage [⟨⟨1⟩, c⟩, ⟨⟨2⟩, clockAfter 1 c' passed⟩]
        (.step (shared ⟨3⟩ 1) ⟨1, some ⟨9⟩, clockAfter 1 c' passed⟩ ::
          passed.map (Visit.mark 1 (some ⟨9⟩) c')) [] :=
  h.visit (runners true true) ⟨2⟩ (shared ⟨1⟩ 1) [⟨⟨1⟩, c⟩, ⟨⟨2⟩, c'⟩] [] fun _ _ _ _ => rfl

theorem final_visit (h : s.Stage [⟨⟨1⟩, c⟩, ⟨⟨2⟩, c'⟩] passed []) :
    ∃ t, s.visitUnit (runners false true) = (.ok ⟨2⟩, t) ∧
      t.Stage [⟨⟨1⟩, c⟩, ⟨⟨2⟩, clockAfter 1 c' passed⟩]
        (.step final ⟨1, some ⟨9⟩, clockAfter 1 c' passed⟩ ::
          passed.map (Visit.mark 1 (some ⟨9⟩) c')) [] :=
  h.visit (runners false true) ⟨2⟩ ⟨⟨2⟩, ⟨2⟩, .empty, 1⟩ [⟨⟨1⟩, c⟩, ⟨⟨2⟩, c'⟩] []
    fun _ _ _ _ => rfl

end Visits

/-- The first run takes unit 1 as often as it can; the first step of unit 2 races with the last one
of unit 1, where both of them are enabled. -/
theorem relay_first (hn : 0 < n) : ∃ t c c' e₀ e₁ e₂,
    Schedules (relay n) (0, 0) (.new 0) (List.replicate n ⟨1⟩ ++ [⟨1⟩, ⟨2⟩, ⟨2⟩]) (n + 1, 2) t ∧
    t.Stage [⟨⟨1⟩, c⟩, ⟨⟨2⟩, c'⟩]
      (.step final e₂ :: .step final e₁ :: .step (shared ⟨1⟩ 0) e₀ :: climb n) [] := by
  obtain ⟨s₀, tracked, ahead, hclimb, hs₀, htracked, hahead⟩ :=
    climb_schedules (⟨rfl, rfl, rfl, rfl⟩ : (new 0).Stage [] [] []) (.inr ⟨rfl, rfl⟩)
      (.inl ⟨rfl, rfl⟩) n (Nat.le_refl n)
  obtain rfl : tracked = [⟨⟨1⟩, ticks n⟩] := htracked.resolve_right fun h => by omega
  obtain rfl : ahead = [] := by simpa using hahead
  obtain ⟨s₁, hvisit₁, hs₁⟩ := newcomer_visit (.inl ⟨hs₀, rfl⟩)
  obtain ⟨s₂, hvisit₂, hs₂⟩ := final_visit hs₁
  obtain ⟨s₃, hvisit₃, hs₃⟩ := final_visit hs₂
  have hrace : Event.racesWith ⟨0, some ⟨9⟩, ticks (n + 1)⟩ 1 (some ⟨9⟩) .zero = true := by
    have hbehind : (ticks (n + 1)).dominatedBy .zero = false := by
      by_contra hle
      have hle := Clock.count_le_of_dominatedBy (by simpa using hle) 0
      rw [count_ticks, Clock.count_zero] at hle
      omega
    rw [Event.racesWith, hbehind]
    rfl
  have hfork : Visit.mark 1 (some ⟨9⟩) .zero (.step newcomer ⟨0, some ⟨9⟩, ticks (n + 1)⟩) =
      .step (shared ⟨1⟩ 0) ⟨0, some ⟨9⟩, ticks (n + 1)⟩ := by
    rw [Visit.mark, hrace]
    rfl
  rw [mark_climb rfl, clockAfter_climb] at hs₂ hs₃
  rw [List.map_cons, hfork, mark_climb rfl] at hs₃
  rw [List.map_cons, List.map_cons, mark_of_widen rfl, mark_of_widen rfl, mark_climb rfl] at hs₃
  refine ⟨s₃, _, _, _, _, _, ?_, hs₃⟩
  have h₁ : Schedules (relay n) (n, 0) s₀ [⟨1⟩] (n + 1, 0) s₁ :=
    hs₀.schedules (by simp) (by simp) hvisit₁
  have h₂ : Schedules (relay n) (n + 1, 0) s₁ [⟨2⟩] (n + 1, 1) s₂ :=
    hs₁.schedules (by simp) (by simp) hvisit₂
  have h₃ : Schedules (relay n) (n + 1, 1) s₂ [⟨2⟩] (n + 1, 2) s₃ :=
    hs₂.schedules (by simp) (by simp) hvisit₃
  exact hclimb.append (h₁.append (h₂.append h₃))

theorem fork_climb (k : Nat) : (climb k).map Visit.fork = List.replicate k (.branch forced) := by
  induction k with
  | zero => rfl
  | succ k ih => rw [climb, List.map_cons, ih, List.replicate_succ]; rfl

/-- The second run goes back to where both units were enabled, and takes unit 2. -/
theorem relay_prepare {c c' : Clock} {e₀ e₁ e₂ : Event} (h : s.Stage [⟨⟨1⟩, c⟩, ⟨⟨2⟩, c'⟩]
      (.step final e₂ :: .step final e₁ :: .step (shared ⟨1⟩ 0) e₀ :: climb n) []) :
    s.prepare.1 = true ∧ s.prepare.2.Stage [⟨⟨1⟩, .zero⟩, ⟨⟨2⟩, .zero⟩] []
      (List.replicate n (.branch forced) ++ [.branch (shared ⟨1⟩ 1)]) := by
  have hpath : backtrack Fork.next? (s.passed.map Visit.fork) =
      .branch (shared ⟨1⟩ 1) :: List.replicate n (.branch forced) := by
    rw [h.passed_eq, List.map_cons, List.map_cons, List.map_cons, fork_climb]
    rfl
  refine ⟨by rw [prepare, hpath]; rfl, h.bound_eq, ?_, rfl, ?_⟩
  · show s.tracked.map _ = _
    rw [h.tracked_eq]
    rfl
  · show (backtrack Fork.next? (s.passed.map Visit.fork)).reverse = _
    rw [hpath, List.reverse_cons, List.reverse_replicate]

/-- In the second run the last step of unit 1 finds the count of the unit at its largest, which the
first step of unit 2 has joined: the second step of unit 2 does not race with it. -/
theorem relay_second (hn : 2 ^ 32 - 1 ≤ n) (h : s.Stage [⟨⟨1⟩, .zero⟩, ⟨⟨2⟩, .zero⟩] []
      (List.replicate n (.branch forced) ++ [.branch (shared ⟨1⟩ 1)])) :
    ∃ t tracked e₀ e₁ e₂,
      Schedules (relay n) (0, 0) s (List.replicate n ⟨1⟩ ++ [⟨2⟩, ⟨1⟩, ⟨2⟩]) (n + 1, 2) t ∧
      t.Stage tracked
        (.step final e₂ :: .step newcomer e₁ :: .step (shared ⟨3⟩ 1) e₀ :: climb n) [] := by
  obtain ⟨s₀, tracked, ahead, hclimb, hs₀, htracked, hahead⟩ :=
    climb_schedules h (.inl rfl) (.inr rfl) n (Nat.le_refl n)
  obtain rfl : tracked = [⟨⟨1⟩, ticks n⟩, ⟨⟨2⟩, .zero⟩] :=
    htracked.resolve_right fun h => List.cons_ne_nil _ _ h.2.2
  obtain rfl : ahead = [.branch (shared ⟨1⟩ 1)] := by simpa using hahead
  obtain ⟨s₁, hvisit₁, hs₁⟩ := shared_visit hs₀
  obtain ⟨s₂, hvisit₂, hs₂⟩ := newcomer_visit (.inr hs₁)
  obtain ⟨s₃, hvisit₃, hs₃⟩ := final_visit hs₂
  have hfull : (clockAfter 1 .zero (climb n)).count 0 = 2 ^ 32 - 1 := by
    obtain ⟨m, rfl⟩ : ∃ m, n = m + 1 := ⟨n - 1, by omega⟩
    have hle := count_clockAfter_climb m
    have hlt : (clockAfter 1 .zero (climb (m + 1))).count 0 < 2 ^ 32 := UInt32.toNat_lt _
    rw [count_ticks] at hle
    omega
  have hbehind := dominatedBy_of_full hfull (shared ⟨3⟩ 1) n
  rw [mark_climb rfl] at hs₂ hs₃
  rw [List.map_cons, mark_of_widen rfl, mark_climb rfl] at hs₃
  rw [List.map_cons, List.map_cons, mark_of_dominatedBy hbehind, mark_of_widen rfl,
    mark_climb rfl] at hs₃
  refine ⟨s₃, _, _, _, _, ?_, hs₃⟩
  have h₁ : Schedules (relay n) (n, 0) s₀ [⟨2⟩] (n, 1) s₁ :=
    hs₀.schedules (by simp) (by simp) hvisit₁
  have h₂ : Schedules (relay n) (n, 1) s₁ [⟨1⟩] (n + 1, 1) s₂ :=
    hs₁.schedules (by simp) (by simp) hvisit₂
  have h₃ : Schedules (relay n) (n + 1, 1) s₂ [⟨2⟩] (n + 1, 2) s₃ :=
    hs₂.schedules (by simp) (by simp) hvisit₃
  exact hclimb.append (h₁.append (h₂.append h₃))

theorem backtrack_climb (k : Nat) : backtrack Fork.next? ((climb k).map Visit.fork) = [] := by
  induction k with
  | zero => rfl
  | succ k ih => exact ih

/-- The search of a relay in which the count of unit 1 reaches its largest value makes two runs: it
does not come to the schedule in which unit 2 makes both of its steps before the last one of
unit 1. -/
theorem relay_missed (hn : 2 ^ 32 - 1 ≤ n) : (relay n).Missed := by
  have hrest : enabledIds ((relay n).units (n + 1, 2)) = [] := by
    rw [relay_units, decide_eq_false (by omega), decide_eq_false (by omega)]
    rfl
  obtain ⟨t, c, c', e₀, e₁, e₂, hfirst, ht⟩ := relay_first (n := n) (by omega)
  obtain ⟨hmore, ht'⟩ := relay_prepare ht
  obtain ⟨t₂, tracked, e₀', e₁', e₂', hsecond, ht₂⟩ := relay_second hn ht'
  have hdone : t₂.prepare.1 = false := by
    have hpath : backtrack Fork.next? (t₂.passed.map Visit.fork) = [] := by
      rw [ht₂.passed_eq]
      exact backtrack_climb n
    rw [prepare, hpath]
    rfl
  obtain ⟨fuel₁, r₁, hdrive₁, hstrategy₁, htrace₁⟩ := hfirst.drive rfl hrest
  obtain ⟨fuel₂, r₂, hdrive₂, hstrategy₂, htrace₂⟩ := hsecond.drive rfl hrest
  refine ⟨max fuel₁ fuel₂, [r₁, r₂], _, ?_, relay_schedule, ?_⟩
  · refine .more (drive_mono (Nat.le_max_left _ _) hdrive₁) ?_ (.last ?_ ?_)
    · rw [hstrategy₁]
      exact hmore
    · rw [hstrategy₁]
      exact drive_mono (Nat.le_max_right _ _) hdrive₂
    · rw [hstrategy₂]
      exact hdone
  · intro other hother r hr heq
    -- all steps are on one target, so that none may be exchanged
    have hother : other = _ := hother.eq_of_unrelated fun a ha b hb hindep => by
      obtain ⟨_, _, rfl⟩ := List.mem_map.1 ha
      obtain ⟨_, _, rfl⟩ := List.mem_map.1 hb
      exact hindep.2.2.2 rfl
    have hunits : ∀ us : List UnitId, us.map Choice.unit =
        other.map (fun a => Choice.unit a.unit) → us = List.replicate n ⟨1⟩ ++ [⟨2⟩, ⟨2⟩, ⟨1⟩] := by
      intro us hus
      rw [hother, List.map_map] at hus
      exact List.map_injective_iff.2 (fun _ _ h => Choice.unit.inj h) hus
    rcases List.mem_cons.1 hr with rfl | hr
    · have hlast := List.append_cancel_left (hunits _ (htrace₁.symm.trans heq))
      revert hlast
      decide
    · obtain rfl := List.mem_singleton.1 hr
      have hlast := List.append_cancel_left (hunits _ (htrace₂.symm.trans heq))
      revert hlast
      decide

end PartialOrder

/-- Neither that all handlers run to their end nor that all steps are counted can be left out where
all schedules are to be covered. -/
theorem schedules_missed :
    (panicking.AlwaysEnds 0 ∧ panicking.Knows [⟨1⟩, ⟨2⟩] ∧ panicking.Commutes ∧
      panicking.Persistent ∧ panicking.Brief ∧ panicking.Missed) ∧
    ((relay (2 ^ 32 - 1)).AlwaysEnds 0 ∧ (relay (2 ^ 32 - 1)).Knows [⟨1⟩, ⟨2⟩] ∧
      (relay (2 ^ 32 - 1)).Commutes ∧ (relay (2 ^ 32 - 1)).Persistent ∧
      (relay (2 ^ 32 - 1)).Completes ∧ (relay (2 ^ 32 - 1)).Missed) :=
  ⟨⟨oneShots_alwaysEnds panicIfFirst_addsUnit 0, oneShots_knows,
      oneShots_commutes_of_target (t := ⟨9⟩) (by decide),
      oneShots_persistent panicIfFirst_addsUnit fun _ _ => rfl,
      oneShots_brief panicIfFirst_addsUnit, panicking_missed⟩,
    relay_alwaysEnds, relay_knows, relay_commutes, relay_persistent, relay_completes,
    PartialOrder.relay_missed (Nat.le_refl _)⟩

end Interleave
