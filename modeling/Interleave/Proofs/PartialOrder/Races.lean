import Interleave.Proofs.PartialOrder.Clocks

/-!
# Interleave.Proofs.PartialOrder.Races

What a run has shown to be tried elsewhere. `Demands es pre e` says that the exchanges `es` of a run
ask for the exchange `e` to be made after `pre`: another value, or the unit of a step that races
with the one made there, or any enabled unit if that one is not enabled.

* `PartialOrder.Heeds`: each demand of a run is planned where it is to be met.
* `heeds_makes`: each choice of a run keeps this.
* `follows_racing`: a run follows its path, heeds the demands and tells which alternatives of each
  fork have been taken.
-/

namespace Interleave

/-- A run demands another exchange at some place: another value, or a unit that races with the one
scheduled there. -/
inductive Demands : List Exchange → List Exchange → Exchange → Prop where
  | value {pre post : List Exchange} {e : Exchange} {v : e.request.Reply} : e.access? = none →
      v ∈ e.request.replies → Demands (pre ++ e :: post) pre ⟨e.request, v⟩
  | race {pre mid post : List Exchange} {candidates : List Candidate} {current : Option Candidate}
      {u w : UnitId} {f : Exchange} {b : Access} : f.access? = some b →
      ¬ (Access.mk u (PartialOrder.targetOf candidates u)).Independent b →
      (∀ d ∈ influence {⟨u, PartialOrder.targetOf candidates u⟩} (accesses mid),
        d.unit ≠ b.unit) →
      w ∈ enabledIds candidates → (b.unit ∈ enabledIds candidates → w = b.unit) →
      Demands (pre ++ ⟨.unit candidates current, u⟩ :: (mid ++ f :: post)) pre
        ⟨.unit candidates current, w⟩

/-- A demand of a run with one more exchange is one of the run without it, or comes from that
exchange: as the value taken there, or as a race with the step made there. -/
theorem demands_concat {es pre : List Exchange} {e e' : Exchange}
    (h : Demands (es ++ [e]) pre e') :
    Demands es pre e' ∨
    (pre = es ∧ e.access? = none ∧ ∃ v ∈ e.request.replies, e' = ⟨e.request, v⟩) ∨
    ∃ mid candidates current u w b, es = pre ++ ⟨.unit candidates current, u⟩ :: mid ∧
      e' = ⟨.unit candidates current, w⟩ ∧ e.access? = some b ∧
      ¬ (Access.mk u (PartialOrder.targetOf candidates u)).Independent b ∧
      (∀ d ∈ influence {⟨u, PartialOrder.targetOf candidates u⟩} (accesses mid),
        d.unit ≠ b.unit) ∧
      w ∈ enabledIds candidates ∧ (b.unit ∈ enabledIds candidates → w = b.unit) := by
  generalize hall : es ++ [e] = es' at h
  cases h with
  | @value _ post e₀ v hvalue hv =>
    rcases PartialOrder.split_concat hall with ⟨rfl, rfl, rfl⟩ | ⟨post', rfl, rfl⟩
    · exact .inr (.inl ⟨rfl, hvalue, v, hv, rfl⟩)
    · exact .inl (.value hvalue hv)
  | @race _ mid post candidates current u w f b hf hdepends hreached hw hunit =>
    have hassoc : es ++ [e] = (pre ++ ⟨.unit candidates current, u⟩ :: mid) ++ f :: post := by
      rw [hall]
      simp
    rcases PartialOrder.split_concat hassoc with ⟨rfl, rfl, rfl⟩ | ⟨post', rfl, rfl⟩
    · exact .inr (.inr ⟨mid, candidates, current, u, w, b, rfl, rfl, hf, hdepends, hreached, hw,
        hunit⟩)
    · refine .inl ?_
      rw [List.append_assoc, List.cons_append]
      exact .race hf hdepends hreached hw hunit

namespace PartialOrder

variable {s : PartialOrder} {bound : Nat} {all : List UnitId} {log : List (Visit × Exchange)}
  {plan rest : List (Fork × Exchange)} {f : Fork} {e : Exchange} {s' : PartialOrder}

/-- Each demand of a run is planned at the fork where it is to be met. -/
def Heeds (s : PartialOrder) (log : List (Visit × Exchange)) : Prop :=
  ∀ pre e, Demands (log.map Prod.snd) pre e →
    ∃ above m below k, log = above ++ m :: below ∧ above.map Prod.snd = pre ∧
      m.1.fork.Plans k ∧ m.1.fork.Offers s.units k e

theorem map_snd_steps {units : List UnitId} (h : ∀ m ∈ log, m.1.Tells units m.2) :
    (steps log).map Prod.snd = accesses (log.map Prod.snd) := by
  induction log with
  | nil => rfl
  | cons m log ih =>
    have ih := ih fun n hn => h n (List.mem_cons_of_mem _ hn)
    obtain ⟨v, e⟩ := m
    unfold steps accesses at *
    cases h (v, e) List.mem_cons_self with
    | @step b ev _ a _ ha _ _ =>
      change e.access? = some a at ha
      simp only [List.map_cons, List.filterMap_cons, stepOf?, ha, Option.map_some, ih]
    | @value count chosen _ hnone =>
      change e.access? = none at hnone
      simp only [List.map_cons, List.filterMap_cons, stepOf?, hnone, ih]

/-- A run takes a fork of the given path or a new one for each exchange. -/
def Tracks (given : List (Fork × Exchange)) (log : List (Visit × Exchange))
    (plan : List (Fork × Exchange)) : Prop :=
  ∃ done new, given ++ new = done ++ plan ∧ (∀ m ∈ new, m.1.Fresh) ∧
    List.Forall₂ (fun m m' => m'.2 = m.2 ∧ m'.1.Takes m.1) done log

theorem tracks_makes {given : List (Fork × Exchange)} {log' : List (Visit × Exchange)} {v : Visit}
    (h : Tracks given log plan) (hhere : Here plan f e rest)
    (hmarked : List.Forall₂ Marked log log') (hv : v.Takes f) :
    Tracks given (log' ++ [(v, e)]) rest := by
  obtain ⟨done, new, hsplit, hfresh, htaken⟩ := h
  have htaken' : List.Forall₂ (fun m m' => m'.2 = m.2 ∧ m'.1.Takes m.1) (done ++ [(f, e)])
      (log' ++ [(v, e)]) := by
    refine List.rel_append ?_ (.cons ⟨rfl, hv⟩ .nil)
    clear hsplit
    induction htaken generalizing log' with
    | nil => cases hmarked; exact .nil
    | cons hm _ ih =>
      cases hmarked with
      | cons hm' hmarked => exact .cons ⟨hm'.1.trans hm.1, hm'.2 _ hm.2⟩ (ih hmarked)
  rcases hhere with rfl | ⟨rfl, rfl, hf⟩
  · exact ⟨done ++ [(f, e)], new, by simpa using hsplit, hfresh, htaken'⟩
  · refine ⟨done ++ [(f, e)], new ++ [(f, e)], ?_, ?_, htaken'⟩
    · rw [← List.append_assoc, hsplit]
      simp
    · intro m hm
      rcases List.mem_append.1 hm with hm | hm
      · exact hfresh m hm
      · rw [List.mem_singleton.1 hm]
        exact hf

theorem plans_mark {v : Visit} {k : Nat} (h : v.fork.Plans k) (slot : Nat)
    (target : Option UnitId) (pre : Clock) : (v.mark slot target pre).fork.Plans k := by
  cases v with
  | value count chosen => exact h
  | step b ev =>
    simp only [Visit.mark]
    split
    · exact Visit.contains_toTry_widen h
    · exact h

/-- A widened scheduling point plans the racing unit, or each enabled unit if that one is not
enabled. -/
theorem plans_widen {units : List UnitId} {b : Branch} {slot : Nat} {candidates : List Candidate}
    {current : Option Candidate} {u w : UnitId}
    (hset : SlotSet.StandsFor units (enabledIds candidates) b.enabled)
    (hslot : units[slot]? = some u) (hlt : slot < maxSlots) (hw : w ∈ enabledIds candidates)
    (hunit : u ∈ enabledIds candidates → w = u) :
    ∃ k, (Fork.branch (b.widen slot)).Plans k ∧
      (Fork.branch (b.widen slot)).Offers units k ⟨.unit candidates current, w⟩ := by
  have hoffers : ∀ k, units[k]? = some w →
      (Fork.branch (b.widen slot)).Offers units k ⟨.unit candidates current, w⟩ := fun k hk =>
    (Visit.offers_of_enabled (Visit.widen_enabled slot b) units k _).2 (.unit hset hw hk)
  cases hcontains : b.enabled.contains slot with
  | true =>
    obtain ⟨u', hu', hslot'⟩ := (hset.contains slot).1 hcontains
    have heq : w = u := hunit (Option.some.inj (hslot'.symm.trans hslot) ▸ hu')
    subst heq
    refine ⟨slot, ?_, hoffers slot hslot⟩
    show (b.widen slot).toTry.contains slot = true
    rw [Branch.widen, if_pos hcontains]
    exact SlotSet.contains_insert.2 (.inr ⟨rfl, hlt⟩)
  | false =>
    obtain ⟨k, hk⟩ := List.getElem?_of_mem (hset.known w hw)
    refine ⟨k, ?_, hoffers k hk⟩
    show (b.widen slot).toTry.contains k = true
    rw [Branch.widen, if_neg (by rw [hcontains]; decide)]
    exact SlotSet.contains_union.2 (.inr ((hset.contains k).2 ⟨w, hw, hk⟩))

/-- Demands of a run with one more choice, in terms of the fork at which they are to be met. -/
theorem heeds_concat {log' : List (Visit × Exchange)} {v : Visit} (hheeds : s.Heeds log)
    (hunits : s.units <+: s'.units) (hnodup : s'.units.Nodup)
    (g : Visit × Exchange → Visit × Exchange) (hlog' : log' = log.map g)
    (hg : ∀ m ∈ log, (g m).2 = m.2 ∧ (∀ k, m.1.fork.Plans k → (g m).1.fork.Plans k) ∧
      ∀ k x, m.1.fork.Offers s'.units k x → (g m).1.fork.Offers s'.units k x)
    (hvalue : e.access? = none → ∀ w ∈ e.request.replies,
      ∃ k, v.fork.Plans k ∧ v.fork.Offers s'.units k ⟨e.request, w⟩)
    (hrace : ∀ above m below candidates current u w b, log = above ++ m :: below →
      m.2 = ⟨.unit candidates current, u⟩ → e.access? = some b →
      ¬ (Access.mk u (targetOf candidates u)).Independent b →
      (∀ d ∈ influence {⟨u, targetOf candidates u⟩} (accesses (below.map Prod.snd)),
        d.unit ≠ b.unit) →
      w ∈ enabledIds candidates → (b.unit ∈ enabledIds candidates → w = b.unit) →
      ∃ k, (g m).1.fork.Plans k ∧ (g m).1.fork.Offers s'.units k ⟨.unit candidates current, w⟩) :
    s'.Heeds (log' ++ [(v, e)]) := by
  have hsnd : log'.map Prod.snd = log.map Prod.snd := by
    rw [hlog', List.map_map]
    exact List.map_congr_left fun m hm => (hg m hm).1
  have hplace : ∀ {above m below}, log = above ++ m :: below →
      log' ++ [(v, e)] = above.map g ++ g m :: (below.map g ++ [(v, e)]) ∧
        (above.map g).map Prod.snd = above.map Prod.snd := by
    rintro above m below rfl
    refine ⟨by rw [hlog']; simp, ?_⟩
    rw [List.map_map]
    exact List.map_congr_left fun n hn => (hg n (List.mem_append_left _ hn)).1
  intro pre x hdemand
  rw [List.map_append, hsnd] at hdemand
  rcases demands_concat hdemand with hdemand | ⟨rfl, hnone, w, hw, rfl⟩ |
    ⟨mid, candidates, current, u, w, b, hsplit, rfl, ha, hdepends, hreached, hw, hunit⟩
  · obtain ⟨above, m, below, k, hsplit, hpre, hplans, hoffers⟩ := hheeds pre x hdemand
    obtain ⟨hsplit', hpre'⟩ := hplace hsplit
    have hm := hg m (by rw [hsplit]; simp)
    exact ⟨_, _, _, k, hsplit', hpre'.trans hpre, hm.2.1 k hplans,
      hm.2.2 k x (hoffers.grow hunits hnodup)⟩
  · obtain ⟨k, hplans, hoffers⟩ := hvalue hnone w hw
    exact ⟨log', (v, e), [], k, rfl, hsnd, hplans, hoffers⟩
  · obtain ⟨above, below', hlog, hpre, hbelow'⟩ := List.map_eq_append_iff.1 hsplit
    obtain ⟨m, below, rfl, hm, rfl⟩ := List.map_eq_cons_iff.1 hbelow'
    obtain ⟨hsplit', hpre'⟩ := hplace hlog
    obtain ⟨k, hplans, hoffers⟩ := hrace above m below candidates current u w b hlog hm ha hdepends
      hreached hw hunit
    exact ⟨_, _, _, k, hsplit', hpre'.trans hpre, hplans, hoffers⟩

/-- The units of a run make so few steps that all of them are counted. -/
def Brief (es : List Exchange) : Prop :=
  ∀ u, (accesses es).countP (fun a => a.unit == u) < 2 ^ 32

theorem count_steps {k : Nat} {u : UnitId} (htimed : s.Timed (steps log))
    (hrecorded : s.Recorded log) (hk : s.units[k]? = some u) :
    (steps log).countP (fun m => m.1.slot == k) =
      (accesses (log.map Prod.snd)).countP (fun a => a.unit == u) := by
  rw [← map_snd_steps hrecorded.tells, List.countP_map]
  refine List.countP_congr fun m hm => ?_
  have hiff := htimed.slot_eq_iff (a := ⟨u, none⟩) hrecorded.nodup hk hm
  simpa using hiff

theorem heeds_commit (hheeds : s.Heeds log) (htimed : s.Timed (steps log))
    (hlogs : s.Logs bound all log plan) {b : Branch} {candidates : List Candidate}
    {current : Option Candidate} {u : UnitId} (hslot : s.units[b.chosen]? = some u)
    (hslots : b.chosen < maxSlots) (ahead : List Fork) :
    (s.commit b (targetOf candidates u) ahead).Heeds
      (log.map (fun m => (m.1.mark b.chosen (targetOf candidates u) (s.lastClock b.chosen), m.2)) ++
        [(s.visitAt b (targetOf candidates u), ⟨.unit candidates current, u⟩)]) := by
  refine heeds_concat hheeds (by rw [units_commit]) (by simpa using hlogs.knows.nodup)
    _ rfl (fun m _ => ⟨rfl, fun k hk => plans_mark hk _ _ _, fun k x hx =>
      (Visit.offers_mark _ _ _ _ _ k x).2 hx⟩) (fun hnone => by cases hnone) ?_
  intro above m below candidates' current' u' w a hsplit hm ha hdepends hreached hw hunit
  cases ha
  obtain ⟨v, x⟩ := m
  change x = ⟨.unit candidates' current', u'⟩ at hm
  subst hm
  have hrecords : ∀ n ∈ above ++ (v, ⟨.unit candidates' current', u'⟩) :: below,
      n.1.Records s.units n.2 := hsplit ▸ hlogs.records
  cases hrecords (v, ⟨.unit candidates' current', u'⟩) (by simp) with
  | value hvalue => cases Visit.access?_of_fits hvalue
  | @step b' ev _ a' hfits' ha' _ _ =>
    cases ha'
    have hsteps : steps log = steps above ++
        (ev, ⟨u', targetOf candidates' u'⟩) :: steps below := by
      rw [hsplit, steps_append]
      rfl
    have hrace : ev.racesWith b.chosen (targetOf candidates u) (s.lastClock b.chosen) = true := by
      refine htimed.racesWith (a := ⟨u, targetOf candidates u⟩) hlogs.knows.nodup hslot hsteps
        hdepends fun d hd => hreached d ?_
      rwa [reached, map_snd_steps fun n hn => (hrecords n (by simp [hn])).tells] at hd
    rw [units_commit]
    simp only [Visit.mark, if_pos hrace]
    change (Fork.branch b').Offers s.units b'.chosen _ at hfits'
    cases hfits' with
    | unit hset _ _ => exact plans_widen hset hslot hslots hw hunit

theorem heeds_passValue (hheeds : s.Heeds log) (hlogs : s.Logs bound all log plan)
    {count chosen : UInt64} (hfits : (Fork.value count chosen).Fits s.units e)
    (ahead : List Fork) :
    (s.passValue count chosen ahead).Heeds (log ++ [(.value count chosen, e)]) := by
  refine heeds_concat hheeds (List.prefix_refl _) hlogs.knows.nodup id (List.map_id _).symm
    (fun m _ => ⟨rfl, fun _ => id, fun _ _ => id⟩) (fun _ w hw => ?_)
    (fun _ _ _ _ _ _ _ b _ _ ha => by rw [Visit.access?_of_fits hfits] at ha; cases ha)
  obtain ⟨k, hk⟩ := hfits.exists_offers hw
  refine ⟨k, ?_, hk⟩
  show k < count.toNat
  change (Fork.value count chosen).Offers s.units k _ at hk
  generalize (⟨e.request, w⟩ : Exchange) = x at hk
  cases hk with
  | boolean _ hk => exact hk
  | integer _ hk => exact hk

theorem Heeds.joined {t : PartialOrder} (h : s.Heeds log) (hjoined : s.Joined t)
    (hnodup : t.units.Nodup) : t.Heeds log := by
  intro pre x hdemand
  obtain ⟨above, m, below, k, hsplit, hpre, hplans, hoffers⟩ := h pre x hdemand
  exact ⟨above, m, below, k, hsplit, hpre, hplans, hoffers.grow hjoined.units hnodup⟩

/-- The count of a unit that has run so often is not yet at its largest. -/
theorem room_of_brief {k : Nat} {candidates : List Candidate} {current : Option Candidate}
    {u : UnitId} (htimed : s.Timed (steps log)) (hrecorded : s.Recorded log)
    (hk : s.units[k]? = some u)
    (hbrief : Brief (log.map Prod.snd ++ [⟨.unit candidates current, u⟩])) :
    (s.lastClock k).count k + 1 < 2 ^ 32 := by
  have hmade := htimed.made k
  rw [count_steps htimed hrecorded hk] at hmade
  have hcount := hbrief u
  have hlast : accesses [⟨.unit candidates current, u⟩] = [⟨u, targetOf candidates u⟩] := rfl
  rw [accesses_append, List.countP_append, hlast, List.countP_singleton] at hcount
  simp only [beq_self_eq_true, if_true] at hcount
  omega

/-- Each choice of a run heeds the demands of the run so far. -/
theorem heeds_makes (hheeds : s.Heeds log) (htimed : s.Timed (steps log))
    (hmakes : s.Makes bound all log plan rest f e s') (hhere : Here plan f e rest)
    (hbrief : Brief (log.map Prod.snd ++ [e])) :
    ∃ log' v, s'.Logs bound all (log' ++ [(v, e)]) rest ∧ List.Forall₂ Marked log log' ∧
      v.Takes f ∧ s'.Heeds (log' ++ [(v, e)]) ∧ s'.Timed (steps (log' ++ [(v, e)])) := by
  cases hmakes with
  | @value count chosen _ hlogs hfits =>
    refine ⟨log, .value count chosen, hlogs.passValue hhere hfits, marked_refl log,
      takes_value _ _, heeds_passValue hheeds hlogs hfits _, ?_⟩
    rw [steps_concat_value]
    exact htimed.passValue count chosen _
  | @unit t b candidates current u hjoined hlogs hsound hfits =>
    obtain ⟨hslot, hslots⟩ := hlogs.recorded.chosen_of_fits hfits
    have htimed' := htimed.joined hjoined
    refine ⟨_, _, hlogs.commit hhere hfits hsound, marked_mark _ _ _ _, takes_visitAt hslots,
      heeds_commit (hheeds.joined hjoined hlogs.knows.nodup) htimed' hlogs hslot hslots _, ?_⟩
    rw [steps_append, steps_map_mark]
    exact htimed'.commit (a := ⟨u, targetOf candidates u⟩) hlogs.recorded hslot
      (room_of_brief htimed' hlogs.recorded hslot hbrief) _

theorem Makes.units (h : s.Makes bound all log plan rest f e s') : s.units <+: s'.units := by
  cases h with
  | unit hjoined _ _ _ =>
    rw [units_commit]
    exact hjoined.units
  | value _ _ => exact List.prefix_refl _

/-- What a run keeps that is to follow a path and begins with a table of units. -/
structure Racing (known : List UnitId) (given : List (Fork × Exchange)) (s : PartialOrder)
    (log : List (Visit × Exchange)) (plan : List (Fork × Exchange)) : Prop where
  heeds : s.Heeds log
  timed : s.Timed (steps log)
  tracks : Tracks given log plan
  grown : known <+: s.units

theorem follows_racing (hall : all.length ≤ maxSlots) (known : List UnitId)
    (given : List (Fork × Exchange)) :
    PartialOrder.strategy.Follows bound (fun es => AllWithin all es ∧ Brief es)
      (KeepsWith bound all (Racing known given)) :=
  follows_with hall (fun _ h => h.1) fun hlogs hracing hhere hmakes hallowed => by
    obtain ⟨log', v, hlogs', hmarked, htakes, hheeds, htimed⟩ :=
      heeds_makes hracing.heeds hracing.timed hmakes hhere hallowed.2
    exact ⟨_, hlogs', ⟨hheeds, htimed, tracks_makes hracing.tracks hhere hmarked htakes,
      hracing.grown.trans hmakes.units⟩, by simp [map_snd_of_marked hmarked]⟩

end PartialOrder
end Interleave
