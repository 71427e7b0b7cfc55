import Interleave.Proofs.PartialOrder.Exhaustive
import Interleave.Proofs.PartialOrder.Stack
import Interleave.Proofs.Search.Backtracking

/-!
# Interleave.Proofs.PartialOrder.Distinct

The runs of partial-order search differ from each other, for all programs: units may be more than
there are slots, and clocks may have stopped counting. Only what was tried matters here, not why.
After each run the walk that it has made is barred, since the path that is left takes another reply
somewhere along it, and barred walks stay so.

* `Ready.finished`: what a run leaves behind, wherever it ends.
* `Apart`, `apart_of_series`: between two runs, the path ahead gives some other reply than each run
  so far.
* `series_ends`: no more runs than leaves, by induction on the leaves that are left.
-/

namespace Interleave
namespace PartialOrder

variable {σ : Type} {P : Program σ} {bound limit : Nat} {all : List UnitId} {s : PartialOrder}
  {plan : List (Fork × Exchange)} {log : List (Visit × Exchange)}

/-- A run takes the forks of a path, from a table of units that only grows. -/
structure Tracking (known : List UnitId) (given : List (Fork × Exchange)) (s : PartialOrder)
    (log : List (Visit × Exchange)) (plan : List (Fork × Exchange)) : Prop where
  tracks : Tracks given log plan
  grown : known <+: s.units

theorem kept_tracking (known : List UnitId) (given : List (Fork × Exchange)) :
    Kept bound (Tracking known given) where
  makes hlogs hkeeps hhere hmakes := by
    obtain ⟨log', v, hlogs', hmarked, htakes⟩ := hmakes.logs hhere
    exact ⟨_, hlogs', ⟨tracks_makes hkeeps.tracks hhere hmarked htakes,
      hkeeps.grown.trans hmakes.units⟩, by simp [map_snd_of_marked hmarked]⟩
  joined hkeeps hjoined := ⟨hkeeps.tracks, hkeeps.grown.trans hjoined.units⟩

theorem Ready.walkedWith (h : Ready bound all P s plan) (hall : all.length ≤ maxSlots) :
    WalkedWith bound (Tracking s.units plan) s [] (plan.map Prod.snd) :=
  ⟨all, hall, [], plan, h.logs, ⟨⟨[], [], by simp, by simp, .nil⟩, List.prefix_refl _⟩, rfl, rfl⟩

theorem Ready.opening (h : Ready bound all P s plan) (hall : all.length ≤ maxSlots) :
    (P.opening PartialOrder.strategy s).Follows bound P
      (WalkedWith bound (Tracking s.units plan)) (plan.map Prod.snd) [] (plan.map Prod.snd) :=
  (kept_tracking s.units plan).proceeds.toCounts.opening (h.walkedWith hall) h.leads

/-- A run has ended that has made the exchanges of a log, along the path that it was given. -/
structure Finished (bound : Nat) (all : List UnitId) (P : Program σ) (s : PartialOrder)
    (plan : List (Fork × Exchange)) (r : Stop σ × Session PartialOrder)
    (log : List (Visit × Exchange)) : Prop where
  logs : r.2.strategy.Logs bound all log []
  logged : Logged plan log
  grown : s.units <+: r.2.strategy.units
  along : plan.map Prod.snd <+: log.map Prod.snd
  walked : ∃ y, (P.root bound).Passes bound P (log.map Prod.snd) y ∧ y.session.trace = r.2.trace
  consistent : r.2.divergence = none

theorem Ready.finished (h : Ready bound all P s plan) (hall : all.length ≤ maxSlots)
    {r : Stop σ × Session PartialOrder}
    (hr : (P.opening PartialOrder.strategy s).Concludes PartialOrder.strategy P r) :
    ∃ all' log, all'.length ≤ maxSlots ∧ Finished bound all' P s plan r log := by
  obtain ⟨es, hend⟩ := (kept_tracking s.units plan).proceeds.ends hr (h.opening hall)
  obtain ⟨all', hall', log, plan', hlogs, hkeeps, rfl, hplan⟩ := hend.keeps
  obtain rfl : plan' = [] := by simpa using hplan
  exact ⟨all', log, hall', hlogs, logged_of_tracks hkeeps.tracks, hkeeps.grown, hend.given,
    hend.walked, hend.consistent⟩

/-- The runs made so far part from each other, and each has made a walk that is barred now. -/
structure Apart (bound : Nat) (P : Program σ) (rs : List (Stop σ × Session PartialOrder))
    (s : PartialOrder) (plan : List (Fork × Exchange)) : Prop where
  parted : (rs.map fun r => r.2.trace).Pairwise Trace.PartsFrom
  barred : ∀ r ∈ rs, ∃ es y, (P.root bound).Passes bound P es y ∧ y.session.trace = r.2.trace ∧
    Barred s.units plan es

variable {rs : List (Stop σ × Session PartialOrder)} {r : Stop σ × Session PartialOrder}

/-- The next run is along the path, and so it parts from those that are barred. -/
theorem Apart.concat (h : Apart bound P rs s plan) (hready : Ready bound all P s plan)
    {all' : List UnitId} (hfinished : Finished bound all' P s plan r log) :
    ((rs ++ [r]).map fun r => r.2.trace).Pairwise Trace.PartsFrom := by
  rw [List.map_append, List.pairwise_append]
  refine ⟨h.parted, List.pairwise_singleton _ _, fun t ht t' ht' => ?_⟩
  obtain ⟨r', hr', rfl⟩ := List.mem_map.1 ht
  obtain rfl : t' = r.2.trace := by simpa using ht'
  obtain ⟨es, y, hes, htrace, hbarred⟩ := h.barred r' hr'
  obtain ⟨y', hes', htrace'⟩ := hfinished.walked
  obtain ⟨pre, e, e', hpre, hpre', hne⟩ :=
    part_of_barred hready.logs.knows.nodup hready.logs.fits hbarred hfinished.along
  rw [← htrace, ← htrace']
  exact partsFrom_of_passes hes hes' hpre hpre' hne

/-- Moving on bars the walk of the run, and leaves those barred that were so before. -/
theorem Apart.moved (h : Apart bound P rs s plan) (hready : Ready bound all P s plan)
    {all' : List UnitId} (hfinished : Finished bound all' P s plan r log)
    {above below : List (Visit × Exchange)} {m : Visit × Exchange} {f : Fork} {e : Exchange}
    (hmoved : Moved log above m below f e) :
    Apart bound P (rs ++ [r]) r.2.strategy.prepare.2 (movedPlan above f e) := by
  have hfits : ∀ n ∈ log, n.1.fork.Fits r.2.strategy.units n.2 := fun n hn =>
    (hfinished.logs.records n hn).fits
  refine ⟨h.concat hready hfinished, fun r' hr' => ?_⟩
  rw [units_prepare]
  rcases List.mem_append.1 hr' with hr' | hr'
  · obtain ⟨es, y, hes, htrace, hbarred⟩ := h.barred r' hr'
    exact ⟨es, y, hes, htrace, barred_of_barred hfinished.logged hmoved hfits
      (fun n hn => hfinished.logged.spent_taken hn)
      (hbarred.grow hfinished.grown hfinished.logs.knows.nodup)⟩
  · obtain rfl := List.mem_singleton.1 hr'
    obtain ⟨y, hes, htrace⟩ := hfinished.walked
    exact ⟨_, y, hes, htrace, barred_made hfinished.logged hmoved hfits⟩

/-- By induction on the runs made so far. -/
theorem apart_of_series (h : PartialOrder.strategy.Series P (.new bound) rs s) :
    ∃ all plan, all.length ≤ maxSlots ∧ Ready bound all P s plan ∧ Apart bound P rs s plan := by
  induction h with
  | nil => exact ⟨[], [], Nat.zero_le _, .new, .nil, nofun⟩
  | @snoc rs s fuel r _ hr htrue ih =>
    obtain ⟨all, plan, hall, hready, hapart⟩ := ih
    obtain ⟨all', log, hall', hfinished⟩ := hready.finished hall (drive_eq_some_iff.1 ⟨fuel, hr⟩)
    obtain ⟨y, hwalked, _⟩ := hfinished.walked
    rcases ready_prepare hfinished.logs ⟨y, hwalked⟩ with ⟨hfalse, _⟩ |
      ⟨_, above, m, below, f, e, hmoved, hready'⟩
    · cases hfalse.symm.trans htrue
    · exact ⟨all', _, hall', hready', hapart.moved hready hfinished hmoved⟩

/-- Each run leads to a leaf of its own. -/
theorem length_series_lt
    (hlimit : ∀ n, boundReached limit n = true → boundReached bound n = true)
    (hfin : {path | (P.along limit path).isSome}.Finite)
    (h : PartialOrder.strategy.Series P (.new bound) rs s)
    (hr : (P.opening PartialOrder.strategy s).Concludes PartialOrder.strategy P r) :
    rs.length + 1 ≤ {path | P.IsMaximal limit path}.ncard := by
  obtain ⟨all, plan, hall, hready, hapart⟩ := apart_of_series h
  obtain ⟨all', log, _, hfinished⟩ := hready.finished hall hr
  have hle := length_le_ncard hlimit hfin (hapart.concat hready hfinished) fun t ht => by
    obtain ⟨r', hr', rfl⟩ := List.mem_map.1 ht
    rcases List.mem_append.1 hr' with hr' | hr'
    · obtain ⟨es, y, hes, htrace, _⟩ := hapart.barred r' hr'
      exact ⟨es, y, hes, htrace⟩
    · obtain rfl := List.mem_singleton.1 hr'
      exact ⟨_, hfinished.walked⟩
  simpa using hle

/-- A run begins at each state of a series, and ends where walks have a greatest length. -/
theorem exists_concludes_of_series {longest : Nat}
    (hlongest : ∀ es y, (P.root bound).Passes bound P es y → es.length ≤ longest)
    (h : PartialOrder.strategy.Series P (.new bound) rs s) :
    ∃ r, (P.opening PartialOrder.strategy s).Concludes PartialOrder.strategy P r := by
  obtain ⟨all, plan, hall, hready, _⟩ := apart_of_series h
  exact (kept_tracking s.units plan).proceeds.concludes hlongest (hready.opening hall)

/-- By induction on the leaves for which there is still a run to come. -/
theorem series_ends (hlimit : ∀ n, boundReached limit n = true → boundReached bound n = true)
    (hfin : {path | (P.along limit path).isSome}.Finite)
    (h : PartialOrder.strategy.Series P (.new bound) rs s) :
    ∃ rs' s' fuel r, PartialOrder.strategy.Series P (.new bound) rs' s' ∧
      Session.drive fuel PartialOrder.strategy P s' = some r ∧ r.2.strategy.prepare.1 = false ∧
      rs'.length + 1 ≤ {path | P.IsMaximal limit path}.ncard := by
  obtain ⟨longest, hlongest⟩ := exists_longest_walk hlimit hfin
  obtain ⟨left, hleft⟩ : ∃ left, {path | P.IsMaximal limit path}.ncard ≤ rs.length + left :=
    ⟨_, Nat.le_add_left _ _⟩
  induction left generalizing rs s with
  | zero =>
    obtain ⟨r, hr⟩ := exists_concludes_of_series hlongest h
    have hlt := length_series_lt hlimit hfin h hr
    omega
  | succ left ih =>
    obtain ⟨r, hr⟩ := exists_concludes_of_series hlongest h
    obtain ⟨fuel, hdrive⟩ := drive_eq_some_iff.2 hr
    cases hprepare : r.2.strategy.prepare.1 with
    | false => exact ⟨rs, s, fuel, r, h, hdrive, hprepare, length_series_lt hlimit hfin h hr⟩
    | true =>
      refine ih (h.snoc hdrive hprepare) ?_
      rw [List.length_append, List.length_singleton]
      omega

/-- The search never repeats itself and never loses its place. Whatever is asked of it, its stack
and its table of units fit, and it has no answer only where an enabled unit gets no slot. In the
runs of any program, one after the other from a fresh search, no request is answered by a
divergence, and any two runs differ at some choice that both have made. The search finds nothing
more to try after no more runs than the choice tree has maximal paths, if that tree is finite, be it
the tree under the bound of the search or under a larger one or none. -/
theorem partialOrder_never_repeats (P : Program σ) (bound : Nat) :
    (∀ s, PartialOrder.strategy.Reaches (.new bound) s → s.Whole ∧
      ∀ candidates, (s.visitUnit candidates).1 = .error .exhausted →
        (s.trackAll .empty (enabledIds candidates)).1 = none) ∧
    (∀ rs s, PartialOrder.strategy.Series P (.new bound) rs s →
      (∀ n a, P.pauseAt PartialOrder.strategy s n = some a →
        a.session.strategy.Whole ∧ (a.answer PartialOrder.strategy P).state.Whole ∧
        ∀ step reason, (a.answer PartialOrder.strategy P).result ≠
          .error (.diverged step reason)) ∧
      ∀ fuel r, Session.drive fuel PartialOrder.strategy P s = some r →
        r.2.divergence = none ∧
        ((rs ++ [r]).map fun r => r.2.trace).Pairwise Trace.PartsFrom) ∧
    ∀ limit, (∀ n, boundReached limit n = true → boundReached bound n = true) →
      {path | (P.along limit path).isSome}.Finite →
      ∃ rs s fuel r, PartialOrder.strategy.Series P (.new bound) rs s ∧
        Session.drive fuel PartialOrder.strategy P s = some r ∧
        (PartialOrder.strategy.prepare r.2.strategy).1 = false ∧
        rs.length + 1 ≤ {path | P.IsMaximal limit path}.ncard := by
  refine ⟨fun s hs => ⟨whole_of_reaches hs, fun candidates => ?_⟩, fun rs s hseries => ?_,
    fun limit hlimit hfin => series_ends hlimit hfin .nil⟩
  · have hcoherent := coherent_of_reaches hs
    exact trackAll_of_exhausted hcoherent.sound hcoherent.nodup
  obtain ⟨all, plan, hall, hready, hapart⟩ := apart_of_series hseries
  constructor
  · intro n a ha
    have hreaches := reaches_pauseAt hseries.reaches ha
    exact ⟨whole_of_reaches hreaches, whole_of_reaches (.answer _ _ hreaches),
      (kept_tracking s.units plan).proceeds.never_diverges (hready.walkedWith hall) hready.leads ha⟩
  · intro fuel r hr
    obtain ⟨all', log, _, hfinished⟩ := hready.finished hall (drive_eq_some_iff.1 ⟨fuel, hr⟩)
    exact ⟨hfinished.consistent, hapart.concat hready hfinished⟩

/-- Two units that send to one, each once. -/
def sendersOnce : Program (List UnitId) where
  fresh := []
  start ran := .finish ran
  units ran := senders.map fun c => { c with enabled := c.id ∉ ran }
  current _ := none
  execute u ran := .finish (u :: ran)
  hotMonitors _ := []
  label _ _ := "sender"

theorem sendersOnce_maximal : {path | sendersOnce.IsMaximal 5 path} = {[0, 0], [1, 0]} := by
  ext path
  constructor
  · rintro ⟨r, h⟩
    obtain ⟨i, rest, u, rfl, hu, h⟩ := follow_inl_eq_inr h
    match i, hu with
    | 0, hu =>
      cases hu
      obtain ⟨j, rest, w, rfl, hw, h⟩ := follow_inl_eq_inr h
      match j, hw with
      | 0, hw =>
        cases hw
        rw [(follow_inr h).1]
        exact .inl rfl
    | 1, hu =>
      cases hu
      obtain ⟨j, rest, w, rfl, hw, h⟩ := follow_inl_eq_inr h
      match j, hw with
      | 0, hw =>
        cases hw
        rw [(follow_inr h).1]
        exact .inr rfl
  · rintro (rfl | rfl)
    · exact ⟨_, rfl⟩
    · exact ⟨_, rfl⟩

/-- The race of the two senders is tried both ways, and then nothing is left. -/
theorem senders_run_twice :
    ∃ r s r', PartialOrder.strategy.Series sendersOnce (.new 5) [r] s ∧ s.Whole ∧
      Session.drive 5 PartialOrder.strategy sendersOnce s = some r' ∧
      (PartialOrder.strategy.prepare r'.2.strategy).1 = false ∧ r'.2.divergence = none ∧
      r.2.trace.PartsFrom r'.2.trace ∧
      ∃ rs s fuel r, PartialOrder.strategy.Series sendersOnce (.new 5) rs s ∧
        Session.drive fuel PartialOrder.strategy sendersOnce s = some r ∧
        (PartialOrder.strategy.prepare r.2.strategy).1 = false ∧ rs.length + 1 ≤ 2 := by
  obtain ⟨hwhole, hruns, hends⟩ := partialOrder_never_repeats sendersOnce 5
  have hboth : ((Session.drive 5 PartialOrder.strategy sendersOnce (.new 5)).bind fun r =>
      (Session.drive 5 PartialOrder.strategy sendersOnce
        (PartialOrder.strategy.prepare r.2.strategy).2).map fun r' =>
          ((PartialOrder.strategy.prepare r.2.strategy).1,
            (PartialOrder.strategy.prepare r'.2.strategy).1)) = some (true, false) := by
    decide +kernel
  obtain ⟨r, hr, hboth⟩ := Option.bind_eq_some_iff.1 hboth
  obtain ⟨r', hr', hboth⟩ := Option.map_eq_some_iff.1 hboth
  obtain ⟨htrue, hfalse⟩ := Prod.mk.inj hboth
  have hseries : PartialOrder.strategy.Series sendersOnce (.new 5) [r] _ := .snoc .nil hr htrue
  obtain ⟨hconsistent, hparted⟩ := (hruns _ _ hseries).2 5 r' hr'
  have hmaximal : {path | sendersOnce.IsMaximal 5 path}.ncard = 2 := by
    rw [sendersOnce_maximal]
    exact Set.ncard_pair (by decide)
  refine ⟨r, _, r', hseries, (hwhole _ hseries.reaches).1, hr', hfalse, hconsistent, ?_, ?_⟩
  · simpa using hparted
  · rw [← hmaximal]
    exact hends 5 (fun _ => id) (finite_along (by decide))

end PartialOrder
end Interleave
