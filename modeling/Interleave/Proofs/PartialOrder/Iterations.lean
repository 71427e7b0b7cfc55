import Interleave.Proofs.PartialOrder.Precedence

/-!
# Interleave.Proofs.PartialOrder.Iterations

What partial-order search does in any run, whoever asks and whatever was asked in earlier runs. A
request is refused, or a value is taken, or a step is committed; and a committed step widens just
those scheduling points whose steps it races with.

* `PartialOrder.Replies`: all that a request can lead to.
* `PartialOrder.Iteration`: the exchanges of a run that begins in any state that the search can be
  in between two runs.
* `iteration_pauseAt`: the runs of programs are such.
* `Iteration.charted`: the clocks of an iteration tell the order of its steps.
* `PartialOrder.Commits`: what a step that is committed makes of all choices of the run.
* `commit_widens_races`: the scheduling points that a step widens, and how; `commits_of_pauseAt`
  says so of the runs of programs.
-/

namespace Interleave

namespace Visit

/-- The units that are to be tried at a choice. -/
def toTry (units : List UnitId) : Visit → Set UnitId
  | step b _ => {w | ∃ slot, b.toTry.contains slot = true ∧ units[slot]? = some w}
  | value _ _ => ∅

/-- Whether a choice made a step that races with one that a slot makes now. -/
def racesWith (slot : Nat) (target : Option UnitId) (pre : Clock) : Visit → Bool
  | step _ e => e.racesWith slot target pre
  | value _ _ => false

theorem mark_of_not_racesWith {v : Visit} {slot : Nat} {target : Option UnitId} {pre : Clock}
    (h : v.racesWith slot target pre = false) : v.mark slot target pre = v := by
  cases v with
  | value count chosen => rfl
  | step b e =>
    change e.racesWith slot target pre = false at h
    simp [mark, h]

/-- A scheduling point that is widened is to try the racing unit, or all that are enabled there. -/
theorem toTry_widen {units : List UnitId} {b : Branch} {ids : List UnitId} {slot : Nat} {u : UnitId}
    (hset : b.enabled.StandsFor units ids) (hslot : units[slot]? = some u) (hlt : slot < maxSlots)
    (e : Event) :
    (step (b.widen slot) e).toTry units =
      if u ∈ ids then insert u ((step b e).toTry units)
      else (step b e).toTry units ∪ {w | w ∈ ids} := by
  have hunit {w : UnitId} (hw : units[slot]? = some w) : w = u :=
    Option.some.inj (hw.symm.trans hslot)
  by_cases hu : u ∈ ids
  · have hcontains : b.enabled.contains slot = true := (hset.contains slot).2 ⟨u, hu, hslot⟩
    rw [if_pos hu]
    ext w
    simp only [toTry, Branch.widen, hcontains, if_true, SlotSet.contains_insert, Set.mem_ofPred_eq,
      Set.mem_insert_iff]
    constructor
    · rintro ⟨k, hk | ⟨rfl, _⟩, hw⟩
      · exact .inr ⟨k, hk, hw⟩
      · exact .inl (hunit hw)
    · rintro (rfl | ⟨k, hk, hw⟩)
      · exact ⟨slot, .inr ⟨rfl, hlt⟩, hslot⟩
      · exact ⟨k, .inl hk, hw⟩
  · have hcontains : ¬ b.enabled.contains slot = true := fun h => by
      obtain ⟨w, hw, hslot'⟩ := (hset.contains slot).1 h
      exact hu (hunit hslot' ▸ hw)
    rw [if_neg hu]
    ext w
    simp only [toTry, Branch.widen, if_neg hcontains, SlotSet.contains_union, Set.mem_ofPred_eq,
      Set.mem_union]
    constructor
    · rintro ⟨k, hk | hk, hw⟩
      · exact .inl ⟨k, hk, hw⟩
      · obtain ⟨x, hx, hslot'⟩ := (hset.contains k).1 hk
        cases hslot'.symm.trans hw
        exact .inr hx
    · rintro (⟨k, hk, hw⟩ | hw)
      · exact ⟨k, .inl hk, hw⟩
      · obtain ⟨k, hk⟩ := List.getElem?_of_mem (hset.known w hw)
        exact ⟨k, .inr ((hset.contains k).2 ⟨w, hw, hk⟩), hk⟩

end Visit

namespace PartialOrder

variable {s s' : PartialOrder} {bound : Nat} {es : List Exchange}

/-- The scheduling point that a run comes to, with the path below it: the next one on the path, or a
new one at its end, where just the unit taken is to be tried. -/
def IsNext (s : PartialOrder) (b : Branch) (ahead : List Fork) : Prop :=
  s.ahead = .branch b :: ahead ∨
    s.ahead = [] ∧ ahead = [] ∧ b.toTry = SlotSet.empty.insert b.chosen ∧ b.tried = .empty

theorem isNext_of_branchHere {enabled : SlotSet} {b : Branch} {ahead : List Fork}
    (h : s.branchHere enabled = some (b, ahead)) : s.IsNext b ahead := by
  unfold branchHere at h
  split at h
  · rename_i hend
    cases h
    exact .inr ⟨hend, rfl, rfl, rfl⟩
  · rename_i b' ahead' hnext
    split at h
    · cases h
      exact .inl hnext
    · cases h
  · cases h

theorem Joined.isNext_iff {t : PartialOrder} (h : s.Joined t) {b : Branch} {ahead : List Fork} :
    t.IsNext b ahead ↔ s.IsNext b ahead := by
  obtain ⟨new, _, rfl⟩ := h
  exact Iff.rfl

/-- A request is refused once the table of units has grown, or answered by a value, or by a unit
whose step is committed. -/
inductive Replies (s : PartialOrder) :
    (r : Request) → Except Refusal r.Reply → PartialOrder → Prop where
  | refused {r : Request} {refusal : Refusal} {t : PartialOrder} : s.Joined t → t.units.Nodup →
      t.Sound → Replies s r (.error refusal) t
  | value {r : Request} {v : r.Reply} (count chosen : UInt64) (ahead : List Fork) :
      Exchange.access? ⟨r, v⟩ = none → Replies s r (.ok v) (s.passValue count chosen ahead)
  | unit {candidates : List Candidate} {current : Option Candidate} {u : UnitId}
      {t : PartialOrder} (b : Branch) (ahead : List Fork) : s.Joined t → t.units.Nodup → t.Sound →
      (Fork.branch b).Fits t.units ⟨.unit candidates current, u⟩ → s.IsNext b ahead →
      Replies s (.unit candidates current) (.ok u) (t.commit b (targetOf candidates u) ahead)

theorem visitUnit_replies (hs : s.Sound) (hnodup : s.units.Nodup) (candidates : List Candidate)
    (current : Option Candidate) :
    s.Replies (.unit candidates current) (s.visitUnit candidates).1
      (s.visitUnit candidates).2 := by
  obtain ⟨hgrown, hslots⟩ := trackAll_spec (enabledIds candidates) s .empty hs.slots
  obtain ⟨hjoined, hnodup', _⟩ := trackAll_joined (enabledIds candidates) s .empty hnodup
  unfold visitUnit
  split
  case h_1 t htrack =>
    rw [htrack] at hgrown hjoined hnodup'
    exact .refused hjoined hnodup' (hgrown.sound hs)
  case h_2 enabled t htrack =>
    have hset := standsFor_of_trackAll hnodup hs.slots htrack
    rw [htrack] at hgrown hjoined hnodup' hslots
    have ht : t.Sound := hgrown.sound hs
    split
    · exact .refused hjoined hnodup' ht
    · rename_i hne
      have hne : enabledIds candidates ≠ [] := by simpa using hne
      split
      · exact .refused hjoined hnodup' ht
      · rename_i b ahead hbranch
        split
        · exact .refused hjoined hnodup' ht
        · rename_i x hx
          obtain ⟨_, _, hsome⟩ := hslots enabled rfl
          obtain ⟨hb, henabled, _⟩ := branchHere_spec ht (hsome hne) hbranch
          have hunit : t.units[b.chosen]? = some x.unit := by simp [units, hx]
          obtain ⟨w, hw, hslot⟩ := (hset.contains b.chosen).1 (henabled ▸ hb.chosen)
          cases hslot.symm.trans hunit
          exact .unit b ahead hjoined hnodup' ht (.unit (henabled ▸ hset) hw hunit)
            (hjoined.isNext_iff.1 (isNext_of_branchHere hbranch))

theorem visitValue_replies (s : PartialOrder) (count : UInt64) {r : Request}
    (f : UInt64 → r.Reply) (hnodup : s.units.Nodup) (hs : s.Sound)
    (hvalue : ∀ n, Exchange.access? ⟨r, f n⟩ = none) :
    s.Replies r ((s.visitValue count).1.map f) (s.visitValue count).2 := by
  unfold visitValue
  split
  · exact .value count 0 [] (hvalue 0)
  · rename_i recorded chosen ahead _
    split
    · exact .value count chosen ahead (hvalue chosen)
    · exact .refused (.refl s) hnodup hs
  · exact .refused (.refl s) hnodup hs

theorem reply_replies (hs : s.Sound) (hnodup : s.units.Nodup) (r : Request) :
    s.Replies r (s.reply r).1 (s.reply r).2 := by
  cases r with
  | unit candidates current => exact visitUnit_replies hs hnodup candidates current
  | boolean max => exact visitValue_replies s 2 _ hnodup hs fun _ => rfl
  | integer max =>
    have h := visitValue_replies s (alternativesOf max) (r := .integer max) id hnodup hs
      fun _ => rfl
    rwa [Except.map_id] at h

/-- What holds in every state that the search can be in. -/
structure Coherent (s : PartialOrder) : Prop where
  sound : s.Sound
  nodup : s.units.Nodup
  depth_eq : s.depth = s.passed.length
  /-- A run begins with clocks that have counted nothing. -/
  unclocked : s.passed = [] → ∀ slot, s.lastClock slot = .zero

theorem Coherent.joined {t : PartialOrder} (h : s.Coherent) (hjoined : s.Joined t)
    (hnodup : t.units.Nodup) (hsound : t.Sound) : t.Coherent := by
  refine ⟨hsound, hnodup, ?_, fun hpassed slot => ?_⟩
  · obtain ⟨new, _, rfl⟩ := hjoined
    exact h.depth_eq
  · rw [hjoined.lastClock]
    obtain ⟨new, _, rfl⟩ := hjoined
    exact h.unclocked hpassed slot

theorem Coherent.replies (h : s.Coherent) {r : Request} {result : Except Refusal r.Reply}
    (hreplies : s.Replies r result s') (hsound : s'.Sound) : s'.Coherent := by
  cases hreplies with
  | refused hjoined hnodup ht => exact h.joined hjoined hnodup ht
  | value count chosen ahead _ =>
    exact ⟨hsound, h.nodup, by simp [passValue, h.depth_eq], fun hpassed => by cases hpassed⟩
  | unit b ahead hjoined hnodup ht _ _ =>
    have ht := h.joined hjoined hnodup ht
    refine ⟨hsound, by simpa using hnodup, ?_, fun hpassed => ?_⟩
    · rw [passed_commit]
      simp [commit, ht.depth_eq]
    · rw [passed_commit] at hpassed
      cases hpassed

theorem Coherent.prepare (h : s.Coherent) : s.prepare.2.Coherent := by
  refine ⟨partialOrder_conforms.prepare s h.sound, by rw [units_prepare]; exact h.nodup, rfl,
    fun _ slot => ?_⟩
  simp only [lastClock, PartialOrder.prepare, List.getElem?_map, Option.map_map]
  cases s.tracked[slot]? <;> rfl

theorem coherent_new (bound : Nat) : (new bound).Coherent :=
  ⟨sound_new bound, List.nodup_nil, rfl, fun _ _ => rfl⟩

theorem coherent_of_reaches (h : PartialOrder.strategy.Reaches (new bound) s) : s.Coherent := by
  induction h with
  | start => exact coherent_new bound
  | answer r scene _ ih =>
    exact ih.replies (reply_replies ih.sound ih.nodup r)
      (partialOrder_conforms.answer r scene _ ih.sound)
  | prepare _ ih => exact ih.prepare
  | reset _ _ => exact coherent_new _

/-- Exchanges made since a run began, in any state that the search can be in before the first
choice of a run. -/
inductive Iteration (bound : Nat) : List Exchange → PartialOrder → Prop where
  | opened {s : PartialOrder} : PartialOrder.strategy.Reaches (new bound) s → s.depth = 0 →
      Iteration bound [] s
  | answered {s : PartialOrder} {es : List Exchange} {r : Request} {v : r.Reply} (scene : Scene) :
      Iteration bound es s → (PartialOrder.strategy.answer r scene s).result = .ok v →
      Iteration bound (es ++ [⟨r, v⟩]) (PartialOrder.strategy.answer r scene s).state
  | refused {s : PartialOrder} {es : List Exchange} {r : Request} {refusal : Refusal}
      (scene : Scene) : Iteration bound es s →
      (PartialOrder.strategy.answer r scene s).result = .error refusal →
      Iteration bound es (PartialOrder.strategy.answer r scene s).state

theorem Iteration.reaches (h : Iteration bound es s) :
    PartialOrder.strategy.Reaches (new bound) s := by
  induction h with
  | opened h _ => exact h
  | answered scene _ _ ih => exact .answer _ scene ih
  | refused scene _ _ ih => exact .answer _ scene ih

/-- The runs of a program are iterations: the exchanges before a pause are those of the pauses
before it. -/
theorem iteration_pauseAt {σ : Type} {P : Program σ} {start : PartialOrder}
    (hstart : PartialOrder.strategy.Reaches (new bound) start) (hdepth : start.depth = 0)
    {n : Nat} : ∀ {a : Pause σ PartialOrder}, P.pauseAt PartialOrder.strategy start n = some a →
      ∃ es, es.length = n ∧ Iteration bound es a.session.strategy ∧
        ∀ i e, es[i]? = some e → ∃ (c : Pause σ PartialOrder) (v : (c.place.request P).Reply),
          P.pauseAt PartialOrder.strategy start i = some c ∧
          (c.answer PartialOrder.strategy P).result = .ok v ∧ e = ⟨c.place.request P, v⟩ := by
  induction n with
  | zero =>
    intro a ha
    have hopening := (opening_eq_inl (Sum.getLeft?_eq_some_iff.1 ha)).1
    exact ⟨[], rfl, hopening ▸ .opened hstart hdepth, fun i e he => by cases he⟩
  | succ n ih =>
    intro b hb
    obtain ⟨a, ha, hab⟩ := pauseAt_of_succ hb
    obtain ⟨es, hlength, hiteration, hpauses⟩ := ih ha
    obtain ⟨v, hresult, hstate, _⟩ := turn_eq_inl hab
    refine ⟨es ++ [⟨a.place.request P, v⟩], by simp [hlength], ?_, fun i e he => ?_⟩
    · rw [hstate]
      exact .answered a.session.scene hiteration hresult
    · by_cases hi : i < es.length
      · rw [List.getElem?_append_left hi] at he
        exact hpauses i e he
      · have hlast := (List.getElem?_eq_some_iff.1 he).1
        rw [List.length_append, List.length_singleton] at hlast
        obtain rfl : i = n := by omega
        rw [← hlength, List.getElem?_concat_length] at he
        cases he
        exact ⟨a, v, ha, hresult, rfl⟩

theorem Recorded.joined {t : PartialOrder} {log : List (Visit × Exchange)} (h : s.Recorded log)
    (hjoined : s.Joined t) (hnodup : t.units.Nodup) (hsound : t.Sound) : t.Recorded log := by
  have hunits := hjoined.units
  obtain ⟨new, _, rfl⟩ := hjoined
  exact ⟨hnodup, hsound.slots, h.passed_eq, fun m hm => (h.tells m hm).grow hunits hnodup⟩

theorem Recorded.passValue {log : List (Visit × Exchange)} (h : s.Recorded log)
    (count chosen : UInt64) (ahead : List Fork) {e : Exchange} (he : e.access? = none) :
    (s.passValue count chosen ahead).Recorded (log ++ [(.value count chosen, e)]) := by
  refine ⟨h.nodup, h.slots, by simp [PartialOrder.passValue, h.passed_eq], fun m hm => ?_⟩
  rcases List.mem_append.1 hm with hm | hm
  · exact h.tells m hm
  · rw [List.mem_singleton.1 hm]
    exact .value he

theorem Recorded.commit {log : List (Visit × Exchange)} (h : s.Recorded log) {b : Branch}
    {candidates : List Candidate} {current : Option Candidate} {u : UnitId}
    (hfits : (Fork.branch b).Fits s.units ⟨.unit candidates current, u⟩) (ahead : List Fork) :
    (s.commit b (targetOf candidates u) ahead).Recorded
      (log.map (fun m => (m.1.mark b.chosen (targetOf candidates u) (s.lastClock b.chosen), m.2)) ++
        [(s.visitAt b (targetOf candidates u), ⟨.unit candidates current, u⟩)]) := by
  refine ⟨by simpa using h.nodup, by simpa [PartialOrder.commit] using h.slots, ?_, fun m hm => ?_⟩
  · rw [passed_commit, h.passed_eq]
    simp [Function.comp_def]
  · rw [units_commit]
    rcases List.mem_append.1 hm with hm | hm
    · obtain ⟨m', hm', rfl⟩ := List.mem_map.1 hm
      exact (h.tells m' hm').mark _ _ _
    · rw [List.mem_singleton.1 hm]
      refine .step ?_ rfl rfl rfl
      exact (Visit.offers_of_enabled (by rfl) s.units b.chosen _).2 hfits

theorem Brief.of_append {fs : List Exchange} (h : Brief (es ++ fs)) : Brief es := by
  intro u
  have hu := h u
  rw [accesses_append, List.countP_append] at hu
  omega

/-- The choices of a run, with what the clocks tell about its steps. -/
structure Charted (s : PartialOrder) (log : List (Visit × Exchange)) : Prop where
  recorded : s.Recorded log
  timed : s.Timed (steps log)
  leading : s.Leading (steps log)

theorem Charted.joined {t : PartialOrder} {log : List (Visit × Exchange)} (h : s.Charted log)
    (hjoined : s.Joined t) (hnodup : t.units.Nodup) (hsound : t.Sound) : t.Charted log :=
  ⟨h.recorded.joined hjoined hnodup hsound, h.timed.joined hjoined, h.leading.joined hjoined⟩

/-- Each answer adds its exchange to what is charted. -/
theorem Charted.replies {log : List (Visit × Exchange)} (h : s.Charted log) {r : Request}
    {v : r.Reply} (hreplies : s.Replies r (.ok v) s')
    (hbrief : Brief (log.map Prod.snd ++ [⟨r, v⟩])) :
    ∃ log', log'.map Prod.snd = log.map Prod.snd ++ [⟨r, v⟩] ∧ s'.Charted log' := by
  cases hreplies with
  | value count chosen ahead he =>
    have hsteps := steps_concat_value log count chosen ⟨r, v⟩
    exact ⟨_, by simp, h.recorded.passValue count chosen ahead he,
      hsteps ▸ h.timed.passValue count chosen ahead,
      hsteps ▸ h.leading.passValue count chosen ahead⟩
  | @unit candidates current u t b ahead hjoined hnodup hsound hfits _ =>
    obtain ⟨hrecorded, htimed, hleading⟩ := h.joined hjoined hnodup hsound
    have hslot := (hrecorded.chosen_of_fits hfits).1
    have hroom := room_of_brief htimed hrecorded hslot hbrief
    refine ⟨_, by simp [Function.comp_def], hrecorded.commit hfits ahead, ?_, ?_⟩
    · rw [steps_append, steps_map_mark]
      exact htimed.commit (a := ⟨u, targetOf candidates u⟩) hrecorded hslot hroom ahead
    · rw [steps_append, steps_map_mark]
      exact hleading.commit (a := ⟨u, targetOf candidates u⟩) htimed hrecorded hslot ahead

theorem Iteration.charted (h : Iteration bound es s) (hbrief : Brief es) :
    ∃ log, log.map Prod.snd = es ∧ s.Charted log := by
  induction h with
  | @opened s hreaches hdepth =>
    have hcoherent := coherent_of_reaches hreaches
    have hpassed : s.passed = [] := List.length_eq_zero_iff.1 (hcoherent.depth_eq ▸ hdepth)
    exact ⟨[], rfl, ⟨hcoherent.nodup, hcoherent.sound.slots, hpassed, by simp⟩,
      timed_of_zero (hcoherent.unclocked hpassed), leading_nil s⟩
  | @answered s es r v scene hiteration hresult ih =>
    have hcoherent := coherent_of_reaches hiteration.reaches
    obtain ⟨log, rfl, hcharted⟩ := ih hbrief.of_append
    have hreplies := reply_replies hcoherent.sound hcoherent.nodup r
    change (s.reply r).1 = .ok v at hresult
    rw [hresult] at hreplies
    exact hcharted.replies hreplies hbrief
  | @refused s es r refusal scene hiteration hresult ih =>
    have hcoherent := coherent_of_reaches hiteration.reaches
    obtain ⟨log, hes, hcharted⟩ := ih hbrief
    have hreplies := reply_replies hcoherent.sound hcoherent.nodup r
    change (s.reply r).1 = .error refusal at hresult
    rw [hresult] at hreplies
    refine ⟨log, hes, ?_⟩
    show (s.reply r).2.Charted log
    cases hreplies with
    | refused hjoined hnodup hsound => exact hcharted.joined hjoined hnodup hsound

/-- A commit widens the scheduling points whose steps it races with, and leaves all other choices
as they are. -/
theorem Charted.widens {log : List (Visit × Exchange)} (h : s.Charted log) {b : Branch}
    {candidates : List Candidate} {current : Option Candidate} {u : UnitId}
    (hfits : (Fork.branch b).Fits s.units ⟨.unit candidates current, u⟩) {i : Nat} {v : Visit}
    (hv : s.passed.reverse[i]? = some v) :
    let v' := v.mark b.chosen (targetOf candidates u) (s.lastClock b.chosen)
    (v.racesWith b.chosen (targetOf candidates u) (s.lastClock b.chosen) = true ↔
      RacesAt (log.map Prod.snd) i ⟨u, targetOf candidates u⟩) ∧
    (RacesAt (log.map Prod.snd) i ⟨u, targetOf candidates u⟩ →
      ∃ offered running w, (log.map Prod.snd)[i]? = some ⟨.unit offered running, w⟩ ∧
        v'.toTry s.units = if u ∈ enabledIds offered then insert u (v.toTry s.units)
          else v.toTry s.units ∪ {x | x ∈ enabledIds offered}) ∧
    (¬ RacesAt (log.map Prod.snd) i ⟨u, targetOf candidates u⟩ → v' = v) := by
  intro v'
  obtain ⟨hrecorded, htimed, hleading⟩ := h
  obtain ⟨hslot, hlt⟩ := hrecorded.chosen_of_fits hfits
  rw [hrecorded.passed_eq, List.reverse_reverse, List.getElem?_map, Option.map_eq_some_iff] at hv
  obtain ⟨⟨v, e⟩, hm, rfl⟩ := hv
  have hiff : v.racesWith b.chosen (targetOf candidates u) (s.lastClock b.chosen) = true ↔
      RacesAt (log.map Prod.snd) i ⟨u, targetOf candidates u⟩ := by
    cases v with
    | step b' ev =>
      exact racesWith_iff (a := ⟨u, targetOf candidates u⟩) hleading htimed hrecorded hslot hm
    | value count chosen =>
      refine ⟨fun h => by (cases h), fun ⟨c, hc, _⟩ => ?_⟩
      obtain ⟨m, ev, hm', hstep⟩ := hrecorded.stepAt_iff.1 hc
      cases hm.symm.trans hm'
      cases hstep
  refine ⟨hiff, fun hrace => ?_, fun hnot => ?_⟩
  · have hmark := hiff.2 hrace
    have htells := hrecorded.tells _ (List.mem_of_getElem? hm)
    cases v with
    | value count chosen => cases hmark
    | step b' ev =>
      change ev.racesWith b.chosen (targetOf candidates u) (s.lastClock b.chosen) = true at hmark
      cases htells with
      | step hfits' _ _ _ =>
        change (Fork.branch b').Offers s.units b'.chosen e at hfits'
        cases hfits' with
        | @unit _ _ offered running w hset _ _ =>
          refine ⟨offered, running, w, by simp [hm], ?_⟩
          simp only [v', Visit.mark, hmark, if_true]
          exact Visit.toTry_widen hset hslot hlt ev
  · exact Visit.mark_of_not_racesWith (Bool.eq_false_iff.2 fun h => hnot (hiff.1 h))

/-- What becomes of the choices of a run when the step `new` is committed after the exchanges `es`:
`t` is the search once the units enabled have slots, `b` the scheduling point that the run comes to,
and `ahead` the path below it. -/
structure Commits (es : List Exchange) (new : Access) (s t : PartialOrder) (b : Branch)
    (ahead : List Fork) (s' : PartialOrder) : Prop where
  joined : s.Joined t
  next : s.IsNext b ahead
  chosen : t.units[b.chosen]? = some new.unit
  state_eq : s' = t.commit b new.target ahead
  /-- The choices that are still to be made stay as they were. -/
  ahead_eq : s'.ahead = ahead
  /-- So does what is to be tried at the scheduling point itself. -/
  last_eq : ∃ e, s'.passed.head? = some (.step { b with tried := b.tried.insert b.chosen } e)
  length_eq : s.passed.length = es.length
  length_next : s'.passed.length = es.length + 1
  /-- The choices that the step is found to race with are those whose steps it races with. -/
  races_iff : ∀ i v, s.passed.reverse[i]? = some v →
    (v.racesWith b.chosen new.target (t.lastClock b.chosen) = true ↔ RacesAt es i new)
  /-- There the unit is to be tried if it was enabled, and all that were enabled otherwise. -/
  widened : ∀ i v, s.passed.reverse[i]? = some v → RacesAt es i new →
    ∃ v' offered running w, s'.passed.reverse[i]? = some v' ∧
      es[i]? = some ⟨.unit offered running, w⟩ ∧
      v'.toTry s'.units = if new.unit ∈ enabledIds offered then insert new.unit (v.toTry s'.units)
        else v.toTry s'.units ∪ {x | x ∈ enabledIds offered}
  kept : ∀ i v, s.passed.reverse[i]? = some v → ¬ RacesAt es i new →
    s'.passed.reverse[i]? = some v

theorem Iteration.commits (hiteration : Iteration bound es s) (scene : Scene) {r : Request}
    {u : r.Reply} {new : Access} (hnew : Exchange.access? ⟨r, u⟩ = some new)
    (hbrief : Brief (es ++ [⟨r, u⟩]))
    (hresult : (PartialOrder.strategy.answer r scene s).result = .ok u) :
    ∃ t b ahead, Commits es new s t b ahead (PartialOrder.strategy.answer r scene s).state := by
  obtain ⟨log, rfl, hcharted⟩ := hiteration.charted hbrief.of_append
  have hcoherent := coherent_of_reaches hiteration.reaches
  have hreplies := reply_replies hcoherent.sound hcoherent.nodup r
  change (s.reply r).1 = .ok u at hresult
  rw [hresult] at hreplies
  have hlength : s.passed.length = (log.map Prod.snd).length := by
    simp [hcharted.recorded.passed_eq]
  show ∃ t b ahead, Commits _ new s t b ahead (s.reply r).2
  generalize (s.reply r).2 = s' at hreplies ⊢
  cases hreplies with
  | value _ _ _ hnone =>
    rw [hnone] at hnew
    cases hnew
  | @unit candidates current u t b ahead hjoined hnodup hsound hfits hnext =>
    cases hnew
    have hcharted := hcharted.joined hjoined hnodup hsound
    have hpassed : s.passed = t.passed := by
      obtain ⟨_, _, rfl⟩ := hjoined
      rfl
    have hmarked {i : Nat} {v : Visit} (hv : s.passed.reverse[i]? = some v) :
        (t.commit b (targetOf candidates u) ahead).passed.reverse[i]? =
          some (v.mark b.chosen (targetOf candidates u) (t.lastClock b.chosen)) := by
      rw [hpassed] at hv
      rw [passed_commit, List.reverse_cons, ← List.map_reverse,
        List.getElem?_append_left (by simpa using (List.getElem?_eq_some_iff.1 hv).1),
        List.getElem?_map, hv]
      rfl
    have hwidens {i : Nat} {v : Visit} (hv : s.passed.reverse[i]? = some v) :=
      hcharted.widens hfits (hpassed ▸ hv)
    refine ⟨t, b, ahead, hjoined, hnext, (hcharted.recorded.chosen_of_fits hfits).1, rfl, rfl,
      ⟨_, by rw [passed_commit]; rfl⟩, hlength, ?_, fun i v hv => (hwidens hv).1,
      fun i v hv hrace => ?_, fun i v hv hnot => ?_⟩
    · rw [passed_commit]
      simp [← hpassed, hlength]
    · obtain ⟨offered, running, w, hat, htoTry⟩ := (hwidens hv).2.1 hrace
      exact ⟨_, offered, running, w, hmarked hv, hat, by rw [units_commit]; exact htoTry⟩
    · rw [hmarked hv, (hwidens hv).2.2 hnot]

/-- The race test is exact. In any iteration in which no unit makes so many steps that its count is
no longer increased, whenever a unit is scheduled, the choices that its step is found to race with
are those that made a step of another unit, on the same target or on one that is not declared, that
happens before no earlier step of the unit. At each of them the unit is to be tried if it was
enabled there, and all enabled units otherwise; all other choices stay as they were, those that are
still to be made among them. -/
theorem commit_widens_races {candidates : List Candidate} {current : Option Candidate} {u : UnitId}
    (scene : Scene) (hiteration : Iteration bound es s)
    (hbrief : Brief (es ++ [⟨.unit candidates current, u⟩]))
    (hresult : (PartialOrder.strategy.answer (.unit candidates current) scene s).result = .ok u) :
    ∃ t b ahead, Commits es ⟨u, targetOf candidates u⟩ s t b ahead
      (PartialOrder.strategy.answer (.unit candidates current) scene s).state :=
  hiteration.commits scene rfl hbrief hresult

/-- So it is in the runs of programs, at each pause where a unit is scheduled: the exchanges are
those of the pauses before it. -/
theorem commits_of_pauseAt {σ : Type} {P : Program σ} {start : PartialOrder}
    (hstart : PartialOrder.strategy.Reaches (new bound) start) (hdepth : start.depth = 0)
    {n : Nat} {a : Pause σ PartialOrder} (ha : P.pauseAt PartialOrder.strategy start n = some a)
    {v : (a.place.request P).Reply} (hv : (a.answer PartialOrder.strategy P).result = .ok v)
    {step : Access} (hstep : Exchange.access? ⟨a.place.request P, v⟩ = some step) :
    ∃ es, es.length = n ∧
      (∀ i e, es[i]? = some e → ∃ (c : Pause σ PartialOrder) (w : (c.place.request P).Reply),
        P.pauseAt PartialOrder.strategy start i = some c ∧
        (c.answer PartialOrder.strategy P).result = .ok w ∧ e = ⟨c.place.request P, w⟩) ∧
      (Brief (es ++ [⟨a.place.request P, v⟩]) → ∃ t b ahead,
        Commits es step a.session.strategy t b ahead (a.answer PartialOrder.strategy P).state) := by
  obtain ⟨es, hlength, hiteration, hpauses⟩ := iteration_pauseAt hstart hdepth ha
  exact ⟨es, hlength, hpauses, fun hbrief =>
    hiteration.commits a.session.scene hstep hbrief hv⟩

/-- Two units that send to one. -/
def senders : List Candidate :=
  [⟨⟨1⟩, .actor, true, some ⟨.send, ⟨9⟩⟩⟩, ⟨⟨2⟩, .actor, true, some ⟨.send, ⟨9⟩⟩⟩]

/-- The search once one of the given units has been asked for. -/
def asked (candidates : List Candidate) (s : PartialOrder) : PartialOrder :=
  (PartialOrder.strategy.answer (.unit candidates none) .empty s).state

/-- The search between the run in which the senders go in order and the next one. -/
def betweenRuns : PartialOrder :=
  (PartialOrder.strategy.prepare (((new 0).asked senders).asked senders.tail)).2

theorem iteration_betweenRuns :
    Iteration 0 [⟨.unit senders none, ⟨2⟩⟩] (betweenRuns.asked senders) :=
  .answered .empty (.opened (.prepare (.answer _ _ (.answer _ _ .start))) rfl) (by decide +kernel)

theorem racesAt_senders : RacesAt [⟨.unit senders none, ⟨2⟩⟩] 0 ⟨⟨1⟩, some ⟨9⟩⟩ := by
  refine ⟨⟨⟨2⟩, some ⟨9⟩⟩, ⟨_, rfl, rfl⟩, ⟨by decide, .inl rfl⟩, fun j b hb hunit => ?_⟩
  obtain ⟨e, he, hb'⟩ := hb
  obtain rfl : j = 0 := by simpa using (List.getElem?_eq_some_iff.1 he).1
  cases he
  cases hb'
  cases hunit

/-- In the second run the other sender goes first, and is found to race all the same. -/
theorem senders_race :
    let s := betweenRuns.asked senders
    let s' := s.asked senders.dropLast
    ∃ v v', s.passed.reverse[0]? = some v ∧ s'.passed.reverse[0]? = some v' ∧
      v'.toTry s'.units = insert ⟨1⟩ (v.toTry s'.units) := by
  intro s s'
  have hbrief : Brief ([⟨.unit senders none, ⟨2⟩⟩] ++ [⟨.unit senders.dropLast none, ⟨1⟩⟩]) :=
    fun u => Nat.lt_of_le_of_lt List.countP_le_length (by decide)
  obtain ⟨t, b, ahead, hcommits⟩ :=
    commit_widens_races .empty iteration_betweenRuns hbrief (by decide +kernel)
  have hlt : 0 < s.passed.reverse.length := by
    rw [List.length_reverse, hcommits.length_eq]
    decide
  obtain ⟨v', offered, running, w, hv', hat, htoTry⟩ :=
    hcommits.widened 0 _ (List.getElem?_eq_getElem hlt) racesAt_senders
  cases hat
  exact ⟨_, v', List.getElem?_eq_getElem hlt, hv', htoTry⟩

end PartialOrder
end Interleave
