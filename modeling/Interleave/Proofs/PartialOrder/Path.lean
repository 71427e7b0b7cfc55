import Interleave.Proofs.PartialOrder.Forks
import Interleave.Proofs.Search

/-!
# Interleave.Proofs.PartialOrder.Path

The path of partial-order search as exchanges.

* `PartialOrder.Logs`: the choices that a run has made and those that it is still to follow, with
  the exchanges that they stand for.
* `Logs.visitUnit`, `Logs.visitValue`: a request is answered from the path, or beyond its end.
* `follows_with`: the search follows its path, for programs with few units.
* `Logs.prepare`: backtracking moves on the deepest choice that has something left to take.
-/

namespace Interleave
namespace PartialOrder

/-- The clock of the last step of a slot. -/
def lastClock (s : PartialOrder) (slot : Nat) : Clock :=
  (s.tracked[slot]?.map (·.clock)).getD .zero

/-- The clock of a step of a slot that is made now. -/
def stepClock (s : PartialOrder) (slot : Nat) (target : Option UnitId) : Clock :=
  ((s.passed.filterMap (Visit.eventBefore? slot target)).foldl (fun c e => c.merge e.clock)
    (s.lastClock slot)).tick slot

/-- The choice that `commit` puts on the path. -/
def visitAt (s : PartialOrder) (b : Branch) (target : Option UnitId) : Visit :=
  .step { b with tried := b.tried.insert b.chosen } ⟨b.chosen, target, s.stepClock b.chosen target⟩

/-- Marking changes nothing where no race has been found. -/
theorem passed_commit (b : Branch) (target : Option UnitId) (ahead : List Fork)
    (s : PartialOrder) :
    (s.commit b target ahead).passed =
      s.visitAt b target :: s.passed.map (Visit.mark b.chosen target (s.lastClock b.chosen)) := by
  have hmark : widenRacing b.chosen target (s.lastClock b.chosen) s.passed =
      s.passed.map (Visit.mark b.chosen target (s.lastClock b.chosen)) :=
    List.map_congr_left fun v _ => by cases v <;> rfl
  simp only [commit]
  refine congrArg₂ List.cons rfl ?_
  split
  · rename_i hzero
    refine (List.map_congr_left fun v hv => ?_).trans (List.map_id _) |>.symm
    cases v with
    | value count chosen => rfl
    | step b' e =>
      simp only [Visit.mark, id_eq]
      split
      · rename_i hrace
        simp only [Event.racesWith, Bool.and_eq_true, Bool.not_eq_true'] at hrace
        have hmem : e ∈ s.passed.filterMap (Visit.eventBefore? b.chosen target) :=
          List.mem_filterMap.2 ⟨_, hv, by simp [Visit.eventBefore?, hrace.1]⟩
        have hnone := List.countP_eq_zero.1 hzero e hmem
        exact absurd (by simpa [lastClock] using hrace.2) hnone
      · rfl
  · exact hmark

/-- The choices made in a run and those it is still to follow go with these exchanges. -/
structure Logs (bound : Nat) (all : List UnitId) (s : PartialOrder)
    (log : List (Visit × Exchange)) (plan : List (Fork × Exchange)) : Prop where
  bound_eq : s.bound = bound
  knows : s.Knows all
  sound : s.Sound
  passed_eq : s.passed = (log.map Prod.fst).reverse
  ahead_eq : s.ahead = plan.map Prod.fst
  records : ∀ m ∈ log, m.1.Records s.units m.2
  fits : ∀ m ∈ plan, m.1.Fits s.units m.2
  depth_eq : s.depth = log.length

/-- The choices of a run stand on the path, and each tells the step that was made there. -/
structure Recorded (s : PartialOrder) (log : List (Visit × Exchange)) : Prop where
  nodup : s.units.Nodup
  slots : s.tracked.length ≤ maxSlots
  passed_eq : s.passed = (log.map Prod.fst).reverse
  tells : ∀ m ∈ log, m.1.Tells s.units m.2

/-- The choice to be made here is the next one of the plan, or a new one beyond its end. -/
def Here (plan : List (Fork × Exchange)) (f : Fork) (e : Exchange)
    (rest : List (Fork × Exchange)) : Prop :=
  plan = (f, e) :: rest ∨ plan = [] ∧ rest = [] ∧ f.Fresh

variable {bound : Nat} {all : List UnitId} {s : PartialOrder} {log : List (Visit × Exchange)}
  {plan : List (Fork × Exchange)}

theorem Logs.recorded (h : s.Logs bound all log plan) : s.Recorded log :=
  ⟨h.knows.nodup, h.sound.slots, h.passed_eq, fun m hm => (h.records m hm).tells⟩

theorem Here.mem {f : Fork} {e : Exchange} {rest : List (Fork × Exchange)}
    (h : Here plan f e rest) {m : Fork × Exchange} (hm : m ∈ rest) : m ∈ plan := by
  rcases h with rfl | ⟨_, rfl, _⟩
  · exact List.mem_cons_of_mem _ hm
  · cases hm

theorem Logs.joined {t : PartialOrder} (h : s.Logs bound all log plan) (hjoined : s.Joined t)
    (hknows : t.Knows all) (hsound : t.Sound) : t.Logs bound all log plan := by
  have hunits := hjoined.units
  obtain ⟨new, _, rfl⟩ := hjoined
  exact ⟨h.bound_eq, hknows, hsound, h.passed_eq, h.ahead_eq,
    fun m hm => (h.records m hm).grow hunits hknows.nodup,
    fun m hm => (h.fits m hm).grow hunits hknows.nodup, h.depth_eq⟩

theorem fresh_branch {b : Branch} (h : b.tried = .empty) : (Fork.branch b).Fresh := by
  intro k hk
  change b.tried.contains k = true at hk
  rw [h, SlotSet.contains_empty] at hk
  cases hk

/-- The choice that `commit` puts on the path takes the fork at which it is made. -/
theorem takes_visitAt {b : Branch} {target : Option UnitId} (hlt : b.chosen < maxSlots) :
    (s.visitAt b target).Takes (.branch b) :=
  ⟨fun units k e => by
      show (Fork.branch { b with tried := b.tried.insert b.chosen }).Offers units k e ↔ _
      exact Visit.offers_of_enabled (by rfl) units k e,
    rfl, fun _ => id,
    fun k => by
      show (b.tried.insert b.chosen).contains k = true ↔ b.tried.contains k = true ∨ k = b.chosen
      rw [SlotSet.contains_insert]
      exact or_congr_right (and_iff_left hlt)⟩

theorem Logs.commit {b : Branch} {candidates : List Candidate} {current : Option Candidate}
    {u : UnitId} {rest : List (Fork × Exchange)} (h : s.Logs bound all log plan)
    (hhere : Here plan (.branch b) ⟨.unit candidates current, u⟩ rest)
    (hfits : (Fork.branch b).Fits s.units ⟨.unit candidates current, u⟩) (hsound : b.Sound) :
    (s.commit b (targetOf candidates u) (rest.map Prod.fst)).Logs bound all
      (log.map (fun m => (m.1.mark b.chosen (targetOf candidates u) (s.lastClock b.chosen), m.2)) ++
        [(s.visitAt b (targetOf candidates u), ⟨.unit candidates current, u⟩)]) rest := by
  have hahead : ∀ f ∈ rest.map Prod.fst, f.Sound := by
    intro f hf
    obtain ⟨m, hm, rfl⟩ := List.mem_map.1 hf
    refine h.sound.ahead _ ?_
    rw [h.ahead_eq]
    exact List.mem_map_of_mem (hhere.mem hm)
  refine ⟨h.bound_eq, ⟨by simpa using h.knows.nodup, by simpa using h.knows.known⟩,
    commit_sound h.sound hsound hahead, ?_, rfl, ?_, ?_, ?_⟩
  · rw [passed_commit, h.passed_eq]
    simp [Function.comp_def]
  · intro m hm
    rw [units_commit]
    rcases List.mem_append.1 hm with hm | hm
    · obtain ⟨m', hm', rfl⟩ := List.mem_map.1 hm
      exact (h.records m' hm').mark _ _ _
    · rw [List.mem_singleton.1 hm]
      refine .step ?_ rfl rfl rfl
      show (Fork.branch { b with tried := b.tried.insert b.chosen }).Offers s.units b.chosen _
      exact (Visit.offers_of_enabled (by rfl) s.units b.chosen _).2 hfits
  · intro m hm
    rw [units_commit]
    exact h.fits m (hhere.mem hm)
  · show s.depth + 1 = _
    simp [h.depth_eq]

/-- A unit is scheduled where the set of enabled units is known and the scheduling point as well. -/
theorem visitUnit_eq {t : PartialOrder} {candidates : List Candidate} {set : SlotSet} {b : Branch}
    {u : UnitId} {ahead : List Fork}
    (htrack : s.trackAll .empty (enabledIds candidates) = (some set, t))
    (hne : enabledIds candidates ≠ []) (hbranch : t.branchHere set = some (b, ahead))
    (hunit : t.units[b.chosen]? = some u) :
    s.visitUnit candidates = (.ok u, t.commit b (targetOf candidates u) ahead) := by
  have hempty : ¬ (enabledIds candidates).isEmpty = true := by simpa using hne
  rw [units, List.getElem?_map] at hunit
  obtain ⟨x, hx, rfl⟩ := Option.map_eq_some_iff.1 hunit
  simp only [PartialOrder.visitUnit, htrack, if_neg hempty, hbranch, hx]

/-- A unit is scheduled: the one on the path, or one of the enabled units beyond its end. -/
theorem Logs.visitUnit (hall : all.length ≤ maxSlots) (h : s.Logs bound all log plan)
    {candidates : List Candidate} (current : Option Candidate)
    (hids : ∀ u ∈ enabledIds candidates, u ∈ all) (hne : enabledIds candidates ≠ [])
    (hplan : ∀ m rest, plan = m :: rest → m.2.request = .unit candidates current) :
    ∃ t b u rest, s.Joined t ∧ t.Logs bound all log plan ∧
      s.visitUnit candidates = (.ok u, t.commit b (targetOf candidates u) (rest.map Prod.fst)) ∧
      Here plan (.branch b) ⟨.unit candidates current, u⟩ rest ∧ b.Sound ∧
      (Fork.branch b).Fits t.units ⟨.unit candidates current, u⟩ := by
  obtain ⟨set, t, htrack, hjoined, hknows, hset⟩ := trackAll_standsFor hall h.knows hids
  have hsound : t.Sound := by
    have hgrown := (trackAll_spec (enabledIds candidates) s .empty h.sound.slots).1
    rw [htrack] at hgrown
    exact hgrown.sound h.sound
  have ht : t.Logs bound all log plan := h.joined hjoined hknows hsound
  cases plan with
  | nil =>
    obtain ⟨first, hfirst⟩ := List.exists_mem_of_ne_nil _ hne
    obtain ⟨slot, hslot⟩ := List.getElem?_of_mem (hset.known first hfirst)
    obtain ⟨k, hk⟩ := SlotSet.first?_isSome ((hset.contains slot).2 ⟨first, hfirst, hslot⟩)
    have hmem := SlotSet.contains_of_first? hk
    obtain ⟨u, hu, hunit⟩ := (hset.contains k).1 hmem
    have hbranch : t.branchHere set = some (⟨set, SlotSet.empty.insert k, .empty, k⟩, []) := by
      have hahead : t.ahead = [] := ht.ahead_eq
      simp [branchHere, hahead, hk]
    exact ⟨t, _, u, [], hjoined, ht, visitUnit_eq htrack hne hbranch hunit,
      .inr ⟨rfl, rfl, fresh_branch rfl⟩, (branchHere_spec hsound ⟨k, hmem⟩ hbranch).1,
      .unit hset hu hunit⟩
  | cons m rest =>
    obtain ⟨f, e⟩ := m
    have hrequest := hplan (f, e) rest rfl
    have hfits : f.Fits t.units e := ht.fits (f, e) List.mem_cons_self
    obtain ⟨r, u⟩ := e
    change r = .unit candidates current at hrequest
    subst hrequest
    have hahead : t.ahead = f :: rest.map Prod.fst := ht.ahead_eq
    have hf : f.Sound := hsound.ahead f (by rw [hahead]; exact List.mem_cons_self)
    cases f with
    | value count chosen => cases hfits
    | branch b =>
      change (Fork.branch b).Offers t.units b.chosen _ at hfits
      cases hfits with
      | unit hb hu hunit =>
        have henabled : b.enabled = set := hb.unique hset (List.prefix_refl _) hknows.nodup
        have hbranch : t.branchHere set = some (b, rest.map Prod.fst) := by
          simp [branchHere, hahead, henabled]
        exact ⟨t, b, u, rest, hjoined, ht, visitUnit_eq htrack hne hbranch hunit, .inl rfl, hf,
          .unit hb hu hunit⟩

/-- The state once a value is taken. -/
def passValue (count chosen : UInt64) (ahead : List Fork) (s : PartialOrder) : PartialOrder :=
  { s with
    passed := .value count chosen :: s.passed
    ahead
    depth := s.depth + 1
    maxDepth := max s.maxDepth (s.depth + 1) }

theorem Logs.passValue {count chosen : UInt64} {e : Exchange} {rest : List (Fork × Exchange)}
    (h : s.Logs bound all log plan) (hhere : Here plan (.value count chosen) e rest)
    (hfits : (Fork.value count chosen).Fits s.units e) :
    (s.passValue count chosen (rest.map Prod.fst)).Logs bound all
      (log ++ [(.value count chosen, e)]) rest := by
  refine ⟨h.bound_eq, ⟨h.knows.nodup, h.knows.known⟩, ⟨h.sound.slots, ?_, ?_⟩, ?_, rfl, ?_,
    fun m hm => h.fits m (hhere.mem hm), ?_⟩
  · intro v hv
    rcases List.mem_cons.1 hv with rfl | hv
    · trivial
    · exact h.sound.passed v hv
  · intro f hf
    obtain ⟨m, hm, rfl⟩ := List.mem_map.1 hf
    refine h.sound.ahead _ ?_
    rw [h.ahead_eq]
    exact List.mem_map_of_mem (hhere.mem hm)
  · simp [PartialOrder.passValue, h.passed_eq]
  · intro m hm
    rcases List.mem_append.1 hm with hm | hm
    · exact h.records m hm
    · rw [List.mem_singleton.1 hm]
      exact .value hfits
  · show s.depth + 1 = _
    simp [h.depth_eq]

theorem Logs.visitValue (h : s.Logs bound all log plan) (count : UInt64)
    (hplan : ∀ m rest, plan = m :: rest → ∃ chosen, m.1 = .value count chosen) :
    ∃ chosen rest, s.visitValue count = (.ok chosen, s.passValue count chosen (rest.map Prod.fst)) ∧
      ((∃ e, plan = (.value count chosen, e) :: rest) ∨ plan = [] ∧ rest = [] ∧ chosen = 0) := by
  cases plan with
  | nil =>
    have hahead : s.ahead = [] := h.ahead_eq
    refine ⟨0, [], ?_, .inr ⟨rfl, rfl, rfl⟩⟩
    simp only [PartialOrder.visitValue, hahead]
    rfl
  | cons m rest =>
    obtain ⟨f, e⟩ := m
    obtain ⟨chosen, hf⟩ := hplan (f, e) rest rfl
    change f = .value count chosen at hf
    subst hf
    have hahead : s.ahead = .value count chosen :: rest.map Prod.fst := h.ahead_eq
    refine ⟨chosen, rest, ?_, .inl ⟨e, rfl⟩⟩
    simp only [PartialOrder.visitValue, hahead]
    rfl

/-- An exchange is made: a unit is scheduled, once the table has grown as needed, or a value is
taken. -/
inductive Makes (s : PartialOrder) (bound : Nat) (all : List UnitId)
    (log : List (Visit × Exchange)) (plan : List (Fork × Exchange))
    (rest : List (Fork × Exchange)) : Fork → Exchange → PartialOrder → Prop where
  | unit {t : PartialOrder} {b : Branch} {candidates : List Candidate}
      {current : Option Candidate} {u : UnitId} : s.Joined t → t.Logs bound all log plan →
      b.Sound → (Fork.branch b).Fits t.units ⟨.unit candidates current, u⟩ →
      Makes s bound all log plan rest (.branch b) ⟨.unit candidates current, u⟩
        (t.commit b (targetOf candidates u) (rest.map Prod.fst))
  | value {count chosen : UInt64} {e : Exchange} : s.Logs bound all log plan →
      (Fork.value count chosen).Fits s.units e →
      Makes s bound all log plan rest (.value count chosen) e
        (s.passValue count chosen (rest.map Prod.fst))

/-- All units that a request offers are among the given ones. -/
def Within (all : List UnitId) (r : Request) : Prop :=
  ∀ candidates current, r = .unit candidates current → ∀ u ∈ enabledIds candidates, u ∈ all

/-- The values of a request by number. -/
structure Valued (r : Request) (count : UInt64) (value : UInt64 → r.Reply) : Prop where
  pos : 0 < count.toNat
  reply : ∀ s, PartialOrder.reply r s =
    ((s.visitValue count).1.map value, (s.visitValue count).2)
  offers : ∀ units taken chosen, chosen.toNat < count.toNat →
    (Fork.value count taken).Offers units chosen.toNat ⟨r, value chosen⟩
  unique : ∀ {units : List UnitId} {f : Fork} {v : r.Reply} {k : Nat}, f.Offers units k ⟨r, v⟩ →
    ∃ taken, f = .value count taken ∧ ∀ chosen : UInt64, chosen.toNat = k → v = value chosen

theorem valued_boolean (max : UInt64) : Valued (.boolean max) 2 fun n => n == 1 where
  pos := by decide
  reply _ := rfl
  offers units taken chosen h := by
    have heq : (chosen == 1) = (chosen.toNat == 1) := by
      rw [Bool.eq_iff_iff, beq_iff_eq, beq_iff_eq, ← UInt64.toNat_inj]
      rfl
    rw [heq]
    exact .boolean rfl h
  unique {units f v k} h := by
    cases h with
    | boolean hcount _ =>
      refine ⟨_, by rw [hcount], fun chosen hchosen => ?_⟩
      rw [Bool.eq_iff_iff, beq_iff_eq, beq_iff_eq, ← UInt64.toNat_inj, hchosen]
      rfl

theorem valued_integer (max : UInt64) : Valued (.integer max) (alternativesOf max) id where
  pos := alternativesOf_pos max
  reply s := by rw [Except.map_id]; rfl
  offers units taken chosen h := by
    have heq : chosen = UInt64.ofNat chosen.toNat := by simp
    show (Fork.value _ taken).Offers units chosen.toNat ⟨.integer max, chosen⟩
    generalize chosen.toNat = k at h heq
    subst heq
    exact .integer rfl h
  unique {units f v k} h := by
    cases h with
    | integer hcount _ =>
      exact ⟨_, by rw [hcount], fun chosen hchosen => by rw [← hchosen]; simp⟩

theorem Valued.answer {r : Request} {count : UInt64} {value : UInt64 → r.Reply}
    (hr : Valued r count value) (h : s.Logs bound all log plan)
    (hplan : ∀ m rest, plan = m :: rest → m.2.request = r) :
    ∃ f v rest s', s.reply r = (.ok v, s') ∧ Here plan f ⟨r, v⟩ rest ∧ v ∈ r.replies ∧
      s.Makes bound all log plan rest f ⟨r, v⟩ s' := by
  have hforks : ∀ m rest, plan = m :: rest → ∃ chosen, m.1 = .value count chosen := by
    rintro ⟨f, ⟨r', v⟩⟩ rest hm
    have hfits := h.fits (f, ⟨r', v⟩) (by rw [hm]; exact List.mem_cons_self)
    obtain rfl : r' = r := hplan _ rest hm
    obtain ⟨taken, hf, _⟩ := hr.unique hfits
    exact ⟨taken, hf⟩
  obtain ⟨chosen, rest, hvisit, hhere⟩ := h.visitValue count hforks
  have hreply : s.reply r = (.ok (value chosen), s.passValue count chosen (rest.map Prod.fst)) := by
    rw [hr.reply, hvisit]
    rfl
  have hfits : (Fork.value count chosen).Fits s.units ⟨r, value chosen⟩ := by
    rcases hhere with ⟨e, hcons⟩ | ⟨_, _, hzero⟩
    · obtain ⟨r', v⟩ := e
      have hfits := h.fits (.value count chosen, ⟨r', v⟩) (by rw [hcons]; exact List.mem_cons_self)
      obtain rfl : r' = r := hplan _ rest hcons
      obtain ⟨_, _, hv⟩ := hr.unique hfits
      rw [← hv chosen rfl]
      exact hfits
    · subst hzero
      exact hr.offers _ _ 0 hr.pos
  refine ⟨_, _, rest, _, hreply, ?_, hfits.mem_replies, .value h hfits⟩
  rcases hhere with ⟨e, hcons⟩ | ⟨hplan, hrest, hzero⟩
  · obtain ⟨r', v⟩ := e
    have hfits' := h.fits (.value count chosen, ⟨r', v⟩) (by rw [hcons]; exact List.mem_cons_self)
    obtain rfl : r' = r := hplan _ rest hcons
    obtain ⟨_, _, hv⟩ := hr.unique hfits'
    rw [← hv chosen rfl]
    exact .inl hcons
  · refine .inr ⟨hplan, hrest, fun k hk => ?_⟩
    rw [hzero] at hk
    exact Nat.not_lt_zero k hk

theorem Logs.answer (hall : all.length ≤ maxSlots) (h : s.Logs bound all log plan) (r : Request)
    (hids : Within all r) (hne : r.replies ≠ [])
    (hplan : ∀ m rest, plan = m :: rest → m.2.request = r) :
    ∃ f v rest s', s.reply r = (.ok v, s') ∧ Here plan f ⟨r, v⟩ rest ∧ v ∈ r.replies ∧
      s.Makes bound all log plan rest f ⟨r, v⟩ s' := by
  cases r with
  | unit candidates current =>
    obtain ⟨t, b, u, rest, hjoined, ht, hvisit, hhere, hsound, hfits⟩ :=
      h.visitUnit hall current (hids candidates current rfl) hne hplan
    exact ⟨_, u, rest, _, hvisit, hhere, hfits.mem_replies, .unit hjoined ht hsound hfits⟩
  | boolean max => exact (valued_boolean max).answer h hplan
  | integer max => exact (valued_integer max).answer h hplan

/-- The choices of a log, some of which may have got more to try. -/
def Marked (m m' : Visit × Exchange) : Prop :=
  m'.2 = m.2 ∧ ∀ f, m.1.Takes f → m'.1.Takes f

theorem marked_refl (log : List (Visit × Exchange)) : List.Forall₂ Marked log log :=
  List.forall₂_same.2 fun _ _ => ⟨rfl, fun _ => id⟩

theorem marked_mark (log : List (Visit × Exchange)) (slot : Nat) (target : Option UnitId)
    (pre : Clock) :
    List.Forall₂ Marked log (log.map fun m => (m.1.mark slot target pre, m.2)) := by
  rw [List.forall₂_map_right_iff]
  exact List.forall₂_same.2 fun m _ => ⟨rfl, fun f hf => hf.mark _ _ _⟩

theorem takes_value (count chosen : UInt64) :
    (Visit.value count chosen).Takes (.value count chosen) := by
  refine ⟨fun _ _ _ => .rfl, rfl, fun _ => id, fun k => ?_⟩
  show k ≤ chosen.toNat ↔ k < chosen.toNat ∨ k = chosen.toNat
  omega

/-- The unit that a scheduling point takes is the one at its slot. -/
theorem Recorded.chosen_of_fits (h : s.Recorded log) {b : Branch}
    {candidates : List Candidate} {current : Option Candidate} {u : UnitId}
    (hfits : (Fork.branch b).Fits s.units ⟨.unit candidates current, u⟩) :
    s.units[b.chosen]? = some u ∧ b.chosen < maxSlots := by
  change (Fork.branch b).Offers s.units b.chosen _ at hfits
  cases hfits with
  | unit _ _ hk => exact ⟨hk, Nat.lt_of_lt_of_le (lt_length_tracked hk) h.slots⟩

theorem Makes.logs {f : Fork} {e : Exchange} {rest : List (Fork × Exchange)} {s' : PartialOrder}
    (h : s.Makes bound all log plan rest f e s') (hhere : Here plan f e rest) :
    ∃ log' v, s'.Logs bound all (log' ++ [(v, e)]) rest ∧ List.Forall₂ Marked log log' ∧
      v.Takes f := by
  cases h with
  | unit hjoined ht hsound hfits =>
    exact ⟨_, _, ht.commit hhere hfits hsound, marked_mark _ _ _ _,
      takes_visitAt (ht.recorded.chosen_of_fits hfits).2⟩
  | value ht hfits => exact ⟨log, _, ht.passValue hhere hfits, marked_refl log, takes_value _ _⟩

/-- Requests offer only given units. -/
def AllWithin (all : List UnitId) (es : List Exchange) : Prop := ∀ e ∈ es, Within all e.request

/-- The exchanges of a log and a plan, of which something further holds. -/
def KeepsWith (bound : Nat) (all : List UnitId)
    (J : PartialOrder → List (Visit × Exchange) → List (Fork × Exchange) → Prop)
    (s : PartialOrder) (passed ahead : List Exchange) : Prop :=
  ∃ log plan, s.Logs bound all log plan ∧ J s log plan ∧ log.map Prod.snd = passed ∧
    plan.map Prod.snd = ahead

/-- The search follows its path and keeps whatever each exchange keeps. -/
theorem follows_with (hall : all.length ≤ maxSlots) {allowed : List Exchange → Prop}
    {J : PartialOrder → List (Visit × Exchange) → List (Fork × Exchange) → Prop}
    (hallowed : ∀ es, allowed es → AllWithin all es)
    (hJ : ∀ {s log plan f e rest s'}, s.Logs bound all log plan → J s log plan →
      Here plan f e rest → s.Makes bound all log plan rest f e s' →
      allowed (log.map Prod.snd ++ [e]) →
      ∃ log', s'.Logs bound all log' rest ∧ J s' log' rest ∧
        log'.map Prod.snd = log.map Prod.snd ++ [e]) :
    PartialOrder.strategy.Follows bound allowed (KeepsWith bound all J) where
  blind _ _ _ := rfl
  atBound := by
    rintro s _ _ ⟨log, plan, hlogs, _, rfl, rfl⟩
    show boundReached s.bound s.depth = _
    rw [hlogs.bound_eq, hlogs.depth_eq, List.length_map]
  follow := by
    rintro s _ e' ahead scene ⟨log, plan, hlogs, hkeeps, rfl, hplan⟩ hpath
    obtain ⟨⟨f, e⟩, rest, rfl, he, rfl⟩ := List.map_eq_cons_iff.1 hplan
    obtain rfl : e = e' := he
    obtain ⟨r, w⟩ := e
    have hfits : f.Fits s.units ⟨r, w⟩ := hlogs.fits (f, ⟨r, w⟩) List.mem_cons_self
    obtain ⟨f', v, rest', s', hreply, hhere, _, hmakes⟩ := hlogs.answer hall r
      (hallowed _ hpath ⟨r, w⟩ (by simp)) (List.ne_nil_of_mem hfits.mem_replies)
      fun m rest hm => by cases hm; rfl
    rcases id hhere with hcons | ⟨hnil, _⟩
    · cases hcons
      obtain ⟨log', hlogs', hkeeps', hmap⟩ := hJ hlogs hkeeps hhere hmakes hpath
      show (s.reply r).1 = _ ∧ KeepsWith bound all J (s.reply r).2 _ _
      rw [hreply]
      exact ⟨rfl, log', rest, hlogs', hkeeps', hmap, rfl⟩
    · cases hnil
  extend := by
    rintro s _ r scene ⟨log, plan, hlogs, hkeeps, rfl, hplan⟩ hne hpath
    obtain rfl : plan = [] := by simpa using hplan
    obtain ⟨v₀, hv₀⟩ := List.exists_mem_of_ne_nil _ hne
    obtain ⟨f, v, rest, s', hreply, hhere, hv, hmakes⟩ := hlogs.answer hall r
      (hallowed _ (hpath v₀ hv₀) ⟨r, v₀⟩ (by simp)) hne fun m rest hm => by cases hm
    rcases id hhere with hcons | ⟨_, hrest, _⟩
    · cases hcons
    · obtain ⟨log', hlogs', hkeeps', hmap⟩ := hJ hlogs hkeeps hhere hmakes (hpath v hv)
      subst hrest
      refine ⟨v, hv, ?_⟩
      show (s.reply r).1 = _ ∧ KeepsWith bound all J (s.reply r).2 _ _
      rw [hreply]
      exact ⟨rfl, log', [], hlogs', hkeeps', hmap, rfl⟩

/-- The path of a state. -/
abbrev Keeps (bound : Nat) (all : List UnitId) : PartialOrder → List Exchange → List Exchange →
    Prop := KeepsWith bound all fun _ _ _ => True

theorem map_snd_of_marked {log log' : List (Visit × Exchange)}
    (h : List.Forall₂ Marked log log') : log'.map Prod.snd = log.map Prod.snd := by
  induction h with
  | nil => rfl
  | cons hm _ ih => rw [List.map_cons, List.map_cons, hm.1, ih]

/-- A path ahead of a run that has yet to begin. -/
theorem logs_new : (new bound).Logs bound all [] [] :=
  ⟨rfl, ⟨List.nodup_nil, by simp [units, new]⟩, ⟨Nat.zero_le _, by simp [new], by simp [new]⟩, rfl,
    rfl, by simp, by simp, rfl⟩

theorem units_prepare : s.prepare.2.units = s.units := by
  simp [PartialOrder.prepare, units, Function.comp_def]

/-- Backtracking finds nothing left to take, or moves on the deepest choice that has. -/
theorem Logs.prepare (h : s.Logs bound all log plan) :
    (s.prepare.1 = false ∧ (∀ m ∈ log, m.1.fork.next? = none) ∧
      s.prepare.2.Logs bound all [] []) ∨
    (s.prepare.1 = true ∧ ∃ above m below f, ∃ w ∈ m.2.request.replies,
      log = above ++ m :: below ∧ (∀ n ∈ below, n.1.fork.next? = none) ∧
      m.1.fork.next? = some f ∧
      s.prepare.2.Logs bound all []
        (above.map (fun n => (n.1.fork, n.2)) ++ [(f, ⟨m.2.request, w⟩)])) := by
  have hpath : s.passed.map Visit.fork = (log.map fun m => m.1.fork).reverse := by
    rw [h.passed_eq]
    simp [Function.comp_def]
  have hknows : s.prepare.2.Knows all :=
    ⟨by rw [units_prepare]; exact h.knows.nodup, by rw [units_prepare]; exact h.knows.known⟩
  have hsound : s.prepare.2.Sound := partialOrder_conforms.prepare s h.sound
  rcases backtrack_eq Fork.next? (s.passed.map Visit.fork) with
    ⟨hnil, hnone⟩ | ⟨below, f₀, f, above, hsplit, hbelow, hnext, hback⟩
  · refine .inl ⟨by simp [PartialOrder.prepare, hnil], fun m hm => hnone _ ?_, h.bound_eq, hknows,
      hsound, rfl, by simp [PartialOrder.prepare, hnil], by simp, by simp, rfl⟩
    rw [hpath, List.mem_reverse]
    exact List.mem_map_of_mem (f := fun m : Visit × Exchange => m.1.fork) hm
  · rw [hpath, ← List.reverse_inj, List.reverse_reverse] at hsplit
    simp only [List.reverse_append, List.reverse_cons, List.append_assoc,
      List.singleton_append] at hsplit
    obtain ⟨above', log', rfl, habove, hlog'⟩ := List.map_eq_append_iff.1 hsplit
    obtain ⟨m, below', rfl, rfl, hbelow'⟩ := List.map_eq_cons_iff.1 hlog'
    have hm : m ∈ above' ++ m :: below' := by simp
    have hfits := (h.records m hm).fits
    obtain ⟨w, hw, hfits'⟩ := Visit.exists_offers_of_next? hfits (h.sound.passed m.1 (by
      rw [h.passed_eq]
      simp)) hnext
    refine .inr ⟨by simp [PartialOrder.prepare, hback], above', m, below', f, w, hw, rfl, ?_,
      hnext, h.bound_eq, hknows, hsound, rfl, ?_, by simp, ?_, rfl⟩
    · intro n hn
      refine hbelow _ ?_
      rw [← List.mem_reverse, ← hbelow']
      exact List.mem_map_of_mem (f := fun m : Visit × Exchange => m.1.fork) hn
    · simp only [PartialOrder.prepare, hback, List.reverse_cons, ← habove]
      simp [Function.comp_def]
    · intro n hn
      rw [units_prepare]
      rcases List.mem_append.1 hn with hn | hn
      · obtain ⟨n', hn', rfl⟩ := List.mem_map.1 hn
        exact (h.records n' (List.mem_append_left _ hn')).fits
      · rw [List.mem_singleton.1 hn]
        exact hfits'

end PartialOrder
end Interleave
