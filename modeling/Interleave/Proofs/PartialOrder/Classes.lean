import Interleave.Proofs.DepthFirst.Exhaustive
import Interleave.Proofs.PartialOrder.Coverage
import Interleave.Proofs.Schedule.OneShots

/-!
# Interleave.Proofs.PartialOrder.Classes

What partial-order search finds, from a fresh search to the run after which it has nothing more to
try.

* `Program.Brief`, `Program.Completes`: no unit is scheduled so often that its steps are no longer
  counted; all handlers run to their end on their own.
* `partialOrder_thorough`: the runs of the search meet each other's demands.
* `partialOrder_covers_schedules`: each complete schedule is a rearrangement of an explored one.
* `partialOrder_finds_failures`: where depth-first search finds a failed assertion, so does
  partial-order search, if units stay enabled until they are scheduled.
-/

namespace Interleave

section Classes

variable {σ : Type} {P : Program σ} {all : List UnitId}

/-- No unit is scheduled 2 ^ 32 times in a run. -/
def Program.Brief (P : Program σ) : Prop :=
  ∀ {es : List Exchange} {p₀ q : σ} {as : List Step} {a : Access},
    (P.start P.fresh).Finishes es p₀ → P.Path p₀ as q → P.Offers q a →
    (as.countP fun b => b.unit == a.unit) + 1 < 2 ^ 32

/-- All handlers finish without a question. -/
structure Program.Completes (P : Program σ) : Prop where
  start : ∃ p, (P.start P.fresh).Finishes [] p
  execute : ∀ {p : σ}, P.Reaches p → ∀ u ∈ enabledIds (P.units p),
    ∃ p', (P.execute u p).Finishes [] p'

theorem Program.Completes.proper (h : P.Completes) : P.Proper where
  start := h.start.choose_spec.proper
  execute hp u hu := (h.execute hp u hu).choose_spec.proper

/-- Units among which are all that are ever enabled. -/
def Program.Knows (P : Program σ) (all : List UnitId) : Prop :=
  ∀ {p : σ}, P.Reaches p → ∀ u ∈ enabledIds (P.units p), u ∈ all

namespace PartialOrder

theorem allWithin_of_accesses {es : List Exchange} (h : accesses es = []) :
    AllWithin all es := by
  intro e he candidates current hrequest
  have hnone := List.filterMap_eq_nil_iff.1 h e he
  obtain ⟨r, v⟩ := e
  obtain rfl : r = .unit candidates current := hrequest
  cases hnone

theorem allWithin_append {es fs : List Exchange} (hes : AllWithin all es)
    (hfs : AllWithin all fs) : AllWithin all (es ++ fs) := fun e he =>
  (List.mem_append.1 he).elim (hes e) (hfs e)

theorem allWithin_exchange (hknown : P.Knows all) {p : σ} (hp : P.Reaches p) (u : UnitId)
    {es : List Exchange} (hes : accesses es = []) : AllWithin all (P.exchange p u :: es) := by
  intro e he
  rcases List.mem_cons.1 he with rfl | he
  · intro candidates current hrequest
    cases hrequest
    exact hknown hp
  · exact allWithin_of_accesses hes e he

theorem allWithin_walk (hknown : P.Knows all) {p q : σ} {as : List Step} {es : List Exchange}
    (h : P.Walk p as es q) : P.Reaches p → AllWithin all es := by
  induction h with
  | nil p => intro _ e he; cases he
  | cons hmakes _ ih =>
    intro hp
    exact allWithin_append (allWithin_exchange hknown hp _ hmakes.2.accesses) (ih (hp.step hmakes))

/-- The steps of a run and the one that comes next. -/
theorem count_lt (hbrief : P.Brief) {es : List Exchange} {p₀ : σ}
    (hstart : (P.start P.fresh).Finishes es p₀) (as : List Step) : ∀ {q : σ}, P.Path p₀ as q →
      ∀ u, (as.countP fun b => b.unit == u) < 2 ^ 32 := by
  induction as using List.reverseRecOn with
  | nil => intro q _ u; exact Nat.two_pow_pos 32
  | append_singleton as b ih =>
    intro q hpath u
    obtain ⟨q₁, has, hb⟩ := hpath.split
    cases hb with
    | cons hb _ =>
      rw [List.countP_append, List.countP_singleton]
      split
      · rename_i hu
        rw [← beq_iff_eq.1 hu]
        exact hbrief hstart has hb.1
      · exact ih has u

theorem brief_walk (hbrief : P.Brief) {es es' : List Exchange} {p₀ q : σ} {as : List Step}
    (hstart : (P.start P.fresh).Finishes es p₀) (hpath : P.Path p₀ as q)
    (h : accesses es' = as.map Step.toAccess ∨
      ∃ a, P.Offers q a ∧ accesses es' = as.map Step.toAccess ++ [a]) : Brief es' := by
  intro u
  have hcount := count_lt hbrief hstart as hpath u
  have hmap : (as.map Step.toAccess).countP (fun a => a.unit == u) =
      as.countP fun b => b.unit == u := List.countP_map
  rcases h with h | ⟨a, ha, h⟩
  · rw [h, hmap]
    exact hcount
  · rw [h, List.countP_append, hmap, List.countP_singleton]
    split
    · rename_i hu
      rw [← beq_iff_eq.1 hu]
      exact hbrief hstart hpath ha
    · exact hcount

/-- All walks of the tree are such as the search can follow. -/
theorem allowed_of_passes (hproper : P.Proper) (hknown : P.Knows all) (hbrief : P.Brief)
    {es : List Exchange} {y : Juncture σ Unit} (h : (P.root 0).Passes 0 P es y) :
    AllWithin all es ∧ Brief es := by
  have hnothing : ∀ {es : List Exchange}, accesses es = [] → AllWithin all es ∧ Brief es :=
    fun hnone => ⟨allWithin_of_accesses hnone, fun u => by
      rw [hnone]
      exact Nat.two_pow_pos 32⟩
  rcases passes_root hproper h with
    ⟨es₀, es₁, es₂, p₀, as, q, s, rfl, hstart, hwalk, hs, hstops⟩ | ⟨hfail, _⟩ | ⟨hnone, _⟩
  · have hp₀ : P.Reaches p₀ := ⟨es₀, p₀, [], hstart, .nil p₀⟩
    have hq := hp₀.path hwalk.path
    have hfirst : AllWithin all es₀ := allWithin_of_accesses hstart.accesses
    have hsteps : AllWithin all es₁ := allWithin_walk hknown hwalk hp₀
    have haccesses : accesses (es₀ ++ (es₁ ++ es₂)) = as.map Step.toAccess ++ accesses es₂ := by
      rw [accesses_append, accesses_append, hstart.accesses, hwalk.accesses]
      rfl
    cases hstops with
    | here =>
      refine ⟨allWithin_append hfirst (allWithin_append hsteps (by intro e he; cases he)),
        brief_walk hbrief hstart hwalk.path (.inl (by rw [haccesses]; exact List.append_nil _))⟩
    | @broken a r hbreaks hr =>
      exact ⟨allWithin_append hfirst (allWithin_append hsteps
          (allWithin_exchange hknown hq _ hbreaks.2.accesses)),
        brief_walk hbrief hstart hwalk.path (.inr ⟨a.toAccess, hbreaks.1, by
          rw [haccesses, hbreaks.accesses]⟩)⟩
    | @asked u es question next t hu hnone =>
      refine ⟨allWithin_append hfirst (allWithin_append hsteps
          (allWithin_exchange hknown hq _ hnone)),
        brief_walk hbrief hstart hwalk.path (.inr ⟨_, offers_of_enabled hu, ?_⟩)⟩
      rw [haccesses]
      exact congrArg _ (accesses_exchanges (a := ⟨⟨u, _⟩, es⟩) (offers_of_enabled hu) hnone)
  · exact hnothing hfail.accesses
  · exact hnothing hnone

theorem exists_run {runs : List (Stop σ × Session PartialOrder)} {walks : List (List Exchange)}
    (h : List.Forall₂ (RunsAlong 0 P) runs walks) {es : List Exchange} (hes : es ∈ walks) :
    ∃ r ∈ runs, RunsAlong 0 P r es := by
  induction h with
  | nil => cases hes
  | cons hr _ ih =>
    rcases List.mem_cons.1 hes with rfl | hes
    · exact ⟨_, List.mem_cons_self, hr⟩
    · obtain ⟨r, hmem, hr⟩ := ih hes
      exact ⟨r, List.mem_cons_of_mem _ hmem, hr⟩

/-- The runs of a fresh search meet each other's demands. -/
theorem partialOrder_thorough (hends : P.AlwaysEnds 0) (hproper : P.Proper)
    (hall : all.length ≤ maxSlots) (hknown : P.Knows all) (hbrief : P.Brief) :
    ∃ enough runs walks, (∀ fuel, enough ≤ fuel →
        Explored fuel PartialOrder.strategy P (.new 0) runs) ∧
      List.Forall₂ (RunsAlong 0 P) runs walks ∧ walks ≠ [] ∧ Thorough P walks := by
  obtain ⟨enough, runs, walks, hruns, hwalks, hne, hdemands⟩ := partialOrder_explores hall
    (fun _ _ h => allowed_of_passes hproper hknown hbrief h) (finite_exchanges hends)
  refine ⟨enough, runs, walks, hruns, hwalks, hne, fun es hes => ?_, hdemands⟩
  obtain ⟨r, _, hr⟩ := exists_run hwalks hes
  exact ⟨_, hr⟩

/-- The search covers all schedules from the point that the start of the program leads to. -/
theorem covers_start {walks : List (List Exchange)} (hends : P.AlwaysEnds 0) (hproper : P.Proper)
    (hc : P.Commutes) (hpersistent : P.Persistent) (hthorough : Thorough P walks)
    (hne : walks ≠ []) {es : List Exchange} {p₀ : σ} (hstart : (P.start P.fresh).Finishes es p₀) :
    Covers P walks es p₀ := by
  obtain ⟨s, hs, hpass⟩ := finishes_passes (P := P) hstart _ sane_new
  obtain ⟨es', hes'⟩ := List.exists_mem_of_ne_nil _ hne
  have hroot : Reached walks [] := ⟨es', hes', List.nil_prefix⟩
  exact hthorough.covers hproper hc hpersistent (finite_exchanges hends)
    ⟨hs, hpass, ⟨es, p₀, [], hstart, .nil p₀⟩, hthorough.values hpass .nil hstart.accesses hroot⟩

end PartialOrder

/-- A walk that only schedules units leaves their schedule as its trace. -/
theorem passes_trace {x y : Juncture σ Unit} {es : List Exchange} (h : x.Passes 0 P es y)
    (hes : (accesses es).length = es.length) :
    y.session.trace.toList =
      x.session.trace.toList ++ (accesses es).map fun a => .unit a.unit := by
  induction h with
  | nil => simp [accesses]
  | @cons a v es y _ _ ih =>
    obtain ⟨x, s⟩ := a
    cases x with
    | scheduling p =>
      have haccesses : accesses (⟨.unit (P.units p) (P.current p), v⟩ :: es) =
          ⟨v, PartialOrder.targetOf (P.units p) v⟩ :: accesses es := rfl
      change (accesses (⟨.unit (P.units p) (P.current p), v⟩ :: es)).length = _ at hes
      rw [haccesses, List.length_cons, List.length_cons] at hes
      rw [ih (by omega), take_trace, Trace.toList_push]
      show _ = s.trace.toList ++ (accesses (⟨.unit (P.units p) (P.current p), v⟩ :: es)).map _
      rw [haccesses, List.map_cons]
      simp [Place.choice]
    | question q next =>
      have hnone : accesses (⟨q.request, v⟩ :: es) = accesses es := by cases q <;> rfl
      change (accesses (⟨q.request, v⟩ :: es)).length = _ at hes
      rw [hnone, List.length_cons] at hes
      have hle : (accesses es).length ≤ es.length := List.length_filterMap_le _ _
      omega

theorem Program.Completes.length_walk (h : P.Completes) {p q : σ} {as : List Step}
    {es : List Exchange} (hwalk : P.Walk p as es q) : P.Reaches p → es.length = as.length := by
  induction hwalk with
  | nil p => intro _; rfl
  | @cons p p' q a as es hmakes _ ih =>
    intro hp
    obtain ⟨p₁, hfinish⟩ := h.execute hp a.unit hmakes.1.1
    have hanswers : a.answers = [] := (hfinish.eq_nil hmakes.2).1
    rw [List.length_append, ih (hp.step hmakes), Program.exchanges, hanswers]
    simp [Nat.add_comm]

/-- Where all handlers complete, no assertion fails. -/
theorem Program.Completes.not_found (h : P.Completes) {walks : List (List Exchange)} :
    ¬ PartialOrder.Found P walks := by
  rintro ⟨es, _, r, hpass, hr⟩
  obtain ⟨p₁, hfinish₁⟩ := h.start
  rcases passes_unsafe h.proper hpass hr with hfail | ⟨es₀, p₀, as, q, a, hstart, hpath, hbreaks⟩
  · exact hfinish₁.not_fails hfail
  · have hq : P.Reaches q := ⟨es₀, p₀, as, hstart, hpath⟩
    obtain ⟨p', hfinish⟩ := h.execute hq _ hbreaks.1.1
    exact hfinish.not_fails hbreaks.2

/-- The steps of a run from its start to where no unit is enabled. -/
def Program.IsSchedule (P : Program σ) (schedule : List Access) : Prop :=
  ∃ es p₀ as q, (P.start P.fresh).Finishes es p₀ ∧ P.Path p₀ as q ∧
    enabledIds (P.units q) = [] ∧ schedule = as.map Step.toAccess

/-- A search that has ended has left out a complete schedule, in whatever order its independent
steps are made. -/
def Program.Missed (P : Program σ) : Prop :=
  ∃ fuel runs schedule, Explored fuel PartialOrder.strategy P (.new 0) runs ∧
    P.IsSchedule schedule ∧ ∀ other, Rearranged Access.Independent schedule other →
      ∀ r ∈ runs, r.2.trace.toList ≠ other.map fun a => .unit a.unit

/-- Where steps on different targets commute, all units stay enabled until they are scheduled and
all handlers run to their end, a fresh search ends, and it explores each complete schedule up to
the order of independent steps. -/
theorem partialOrder_covers_schedules (hends : P.AlwaysEnds 0) (hall : all.length ≤ maxSlots)
    (hknown : P.Knows all) (hcompletes : P.Completes) (hc : P.Commutes)
    (hpersistent : P.Persistent) (hbrief : P.Brief) :
    ∃ enough runs, (∀ fuel, enough ≤ fuel →
        Explored fuel PartialOrder.strategy P (.new 0) runs) ∧
      ∀ schedule, P.IsSchedule schedule → ∃ r ∈ runs, ∃ other,
        Rearranged Access.Independent schedule other ∧
        r.2.trace.toList = other.map fun a => .unit a.unit := by
  obtain ⟨enough, runs, walks, hruns, hwalks, hne, hthorough⟩ :=
    PartialOrder.partialOrder_thorough hends hcompletes.proper hall hknown hbrief
  refine ⟨enough, runs, hruns, ?_⟩
  rintro _ ⟨es₀, p₀, as, q, hstart, hpath, hrest, rfl⟩
  obtain ⟨_, bs, es, q', hrearranged, hwalk, _, hmem⟩ :=
    (PartialOrder.covers_start hends hcompletes.proper hc hpersistent hthorough hne hstart as q none
      hpath hrest).resolve_left hcompletes.not_found
  obtain ⟨p₁, hfinish⟩ := hcompletes.start
  obtain rfl : es₀ = [] := (hfinish.eq_nil hstart).1
  obtain ⟨r, hr, hpass⟩ := PartialOrder.exists_run hwalks hmem
  refine ⟨r, hr, bs.map Step.toAccess, hrearranged.map (f := Step.toAccess) fun _ _ h => h, ?_⟩
  have hlength := hcompletes.length_walk hwalk ⟨[], p₀, [], hstart, .nil p₀⟩
  have htrace := passes_trace hpass (by
    rw [List.nil_append, hwalk.accesses, List.length_map, hlength])
  rw [List.nil_append, hwalk.accesses] at htrace
  have hroot : (P.root 0).session.trace = .empty := (settle_framed _ P _ _).trace
  rw [hroot] at htrace
  exact htrace

theorem oneShots_brief {units : List OneShot} {ready : UnitId → Finset UnitId → Bool}
    {handler : UnitId → Finset UnitId → Handler (Finset UnitId)} (hadds : AddsUnit handler) :
    (oneShots units ready handler).Brief := by
  intro es ran₀ ran as a _ hpath hoffers
  have hcount := (oneShots_scheduled_once hadds hpath (oneShots_offers.1 hoffers).2.1).2
  rw [hcount]
  decide

theorem plainShots_completes {units : List OneShot} : (plainShots units).Completes where
  start := ⟨∅, .finish ∅⟩
  execute _ _ _ := ⟨_, .finish _⟩

theorem plainShots_last_first : (plainShots threeShots).IsSchedule
    [⟨⟨3⟩, some ⟨8⟩⟩, ⟨⟨2⟩, some ⟨9⟩⟩, ⟨⟨1⟩, some ⟨9⟩⟩] := by
  refine ⟨[], ∅, [⟨⟨⟨3⟩, some ⟨8⟩⟩, []⟩, ⟨⟨⟨2⟩, some ⟨9⟩⟩, []⟩, ⟨⟨⟨1⟩, some ⟨9⟩⟩, []⟩], _,
    .finish ∅, .cons (plainShots_makes.2 ⟨oneShots_offers.2 (by decide), rfl, rfl⟩)
      (.cons (plainShots_makes.2 ⟨oneShots_offers.2 (by decide), rfl, rfl⟩)
        (.cons (plainShots_makes.2 ⟨oneShots_offers.2 (by decide), rfl, rfl⟩) (.nil _))),
    by decide, rfl⟩

theorem plainShots_last_first_covered : ∃ enough runs, (∀ fuel, enough ≤ fuel →
      Explored fuel PartialOrder.strategy (plainShots threeShots) (.new 0) runs) ∧
    ∃ r ∈ runs, ∃ other, Rearranged Access.Independent
      [⟨⟨3⟩, some ⟨8⟩⟩, ⟨⟨2⟩, some ⟨9⟩⟩, ⟨⟨1⟩, some ⟨9⟩⟩] other ∧
      r.2.trace.toList = other.map fun a => .unit a.unit := by
  obtain ⟨enough, runs, hruns, hcovers⟩ := partialOrder_covers_schedules
    (P := plainShots threeShots) (oneShots_alwaysEnds plainShots_addsUnit 0)
    (by decide : (threeShots.map OneShot.unit).length ≤ maxSlots) oneShots_knows
    plainShots_completes plainShots_commutes
    (oneShots_persistent plainShots_addsUnit fun _ _ => rfl) (oneShots_brief plainShots_addsUnit)
  exact ⟨enough, runs, hruns, hcovers _ plainShots_last_first⟩

/-- Two units on one target. -/
def twoShots : List OneShot := [⟨⟨1⟩, ⟨9⟩⟩, ⟨⟨2⟩, ⟨9⟩⟩]

/-- Unit 1 panics unless unit 2 has run before. -/
def panicIfFirst (u : UnitId) (ran : Finset UnitId) : Handler (Finset UnitId) :=
  if u = ⟨1⟩ ∧ ⟨2⟩ ∉ ran then .panic "too early" else .finish (insert u ran)

def panicking : Program (Finset UnitId) := oneShots twoShots (fun _ _ => true) panicIfFirst

theorem panicIfFirst_addsUnit : AddsUnit panicIfFirst := by
  intro u ran
  unfold panicIfFirst
  split
  · trivial
  · rfl

/-- A panic ends a run before the steps that it could race with are made. -/
theorem panicking_missed : panicking.Missed := by
  have hfinish : ∀ u ran, ¬ (u = ⟨1⟩ ∧ ⟨2⟩ ∉ ran) →
      (panicking.execute u ran).Finishes [] (insert u ran) := by
    intro u ran h
    show (panicIfFirst u ran).Finishes [] (insert u ran)
    rw [panicIfFirst, if_neg h]
    exact .finish _
  have hschedule : panicking.IsSchedule [⟨⟨2⟩, some ⟨9⟩⟩, ⟨⟨1⟩, some ⟨9⟩⟩] :=
    ⟨[], ∅, [⟨⟨⟨2⟩, some ⟨9⟩⟩, []⟩, ⟨⟨⟨1⟩, some ⟨9⟩⟩, []⟩], {⟨1⟩, ⟨2⟩}, .finish ∅,
      .cons ⟨oneShots_offers.2 (by decide), hfinish _ _ (by decide)⟩
        (.cons ⟨oneShots_offers.2 (by decide), hfinish _ _ (by decide)⟩ (.nil _)), by decide, rfl⟩
  refine ⟨9, [_], _, .last rfl rfl, hschedule, ?_⟩
  intro other hother r hr heq
  obtain rfl := List.mem_singleton.1 hr
  have hlength := congrArg List.length heq
  rw [List.length_map, ← hother.perm.length_eq] at hlength
  revert hlength
  decide

theorem EndsUnsafe.forget {τ : Type} {r : Stop σ × Session τ} (h : EndsUnsafe r) :
    EndsUnsafe (r.1, r.2.forget) := h

/-- A walk of the tree to a failed assertion has thorough runs find one. -/
theorem PartialOrder.Thorough.found_of_passes {walks : List (List Exchange)}
    (h : PartialOrder.Thorough P walks) (hne : walks ≠ []) (hends : P.AlwaysEnds 0)
    (hproper : P.Proper) (hc : P.Commutes) (hpersistent : P.Persistent) {es : List Exchange}
    {r : Stop σ × Session Unit} (hpass : (P.root 0).Passes 0 P es (.inr r)) (hr : EndsUnsafe r) :
    PartialOrder.Found P walks := by
  rcases passes_unsafe hproper hpass hr with hfail | ⟨es₀, p₀, as, q, a, hstart, hpath, hbreaks⟩
  · obtain ⟨es', hes'⟩ := List.exists_mem_of_ne_nil _ hne
    obtain ⟨es', hes', fs, rfl⟩ := h.values hpass .nil hfail.accesses ⟨es', hes', List.nil_prefix⟩
    obtain ⟨r', hr'⟩ := h.leaf _ hes'
    obtain ⟨_, heq⟩ := (Juncture.Passes.rest hr' hpass).of_inr
    cases heq
    exact ⟨_, hes', r, hr', hr⟩
  · rcases PartialOrder.covers_start hends hproper hc hpersistent h hne hstart as q (some a) hpath
      hbreaks with hfound | ⟨hnone, _⟩
    · exact hfound
    · cases hnone

/-- The runs of a depth-first series are walks of the tree. -/
theorem exists_passes_of_depthFirst (hends : P.AlwaysEnds 0) {fuel : Nat}
    {runs : List (Stop σ × Session DepthFirst)}
    (h : Explored fuel DepthFirst.strategy P (.new 0) runs) :
    ∀ r ∈ runs, ∃ es, (P.root 0).Passes 0 P es (.inr (r.1, r.2.forget)) := by
  obtain ⟨longest, hlongest⟩ := exists_longest (finite_exchanges hends)
  have hlong : ∀ path, (P.along 0 path).isSome → path.length ≤ longest := by
    intro path hpath
    obtain ⟨y, hy⟩ := Option.isSome_iff_exists.1 hpath
    obtain ⟨es, hlength, hes⟩ := passes_of_follow hy
    rw [← hlength]
    exact hlongest es y hes
  intro r hr
  obtain ⟨path, hpath⟩ := exists_path_of_explored hlong h Ready.new r hr
  obtain ⟨es, _, hes⟩ := passes_of_follow hpath
  exact ⟨es, hes⟩

/-- Where all units stay enabled until they are scheduled, partial-order search finds a failed
assertion if depth-first search does. -/
theorem partialOrder_finds_failures (hends : P.AlwaysEnds 0) (hall : all.length ≤ maxSlots)
    (hknown : P.Knows all) (hproper : P.Proper) (hc : P.Commutes) (hpersistent : P.Persistent)
    (hbrief : P.Brief) :
    ∃ enough runs, (∀ fuel, enough ≤ fuel →
        Explored fuel PartialOrder.strategy P (.new 0) runs) ∧
      ∀ fuel others, Explored fuel DepthFirst.strategy P (.new 0) others →
        (∃ r ∈ others, EndsUnsafe r) → ∃ r ∈ runs, EndsUnsafe r := by
  obtain ⟨enough, runs, walks, hruns, hwalks, hne, hthorough⟩ :=
    PartialOrder.partialOrder_thorough hends hproper hall hknown hbrief
  refine ⟨enough, runs, hruns, ?_⟩
  rintro fuel others hothers ⟨r, hr, hunsafe⟩
  obtain ⟨es, hpass⟩ := exists_passes_of_depthFirst hends hothers r hr
  obtain ⟨es', hmem, r', hpass', hunsafe'⟩ :=
    hthorough.found_of_passes hne hends hproper hc hpersistent hpass hunsafe.forget
  obtain ⟨r₁, hr₁, hmade⟩ := PartialOrder.exists_run hwalks hmem
  refine ⟨r₁, hr₁, ?_⟩
  cases hpass'.unique hmade
  exact hunsafe'

/-- Unit 2 fails if unit 1 has run before. -/
abbrev lateFailure : Program (Finset UnitId) :=
  checkedShots twoShots (fun _ _ => true) fun u ran => decide (u = ⟨2⟩ → ⟨1⟩ ∉ ran)

theorem lateFailure_found : ∃ enough runs, (∀ fuel, enough ≤ fuel →
      Explored fuel PartialOrder.strategy lateFailure (.new 0) runs) ∧
    ∃ r ∈ runs, EndsUnsafe r := by
  obtain ⟨enough, runs, hruns, hfound⟩ := partialOrder_finds_failures (P := lateFailure)
    (oneShots_alwaysEnds checkedShots_addsUnit 0)
    (by decide : (twoShots.map OneShot.unit).length ≤ maxSlots) oneShots_knows checkedShots_proper
    (oneShots_commutes_of_target (t := ⟨9⟩) (by decide))
    (oneShots_persistent checkedShots_addsUnit fun _ _ => rfl)
    (oneShots_brief checkedShots_addsUnit)
  have hothers : Explored 9 DepthFirst.strategy lateFailure (.new 0) [_, _] :=
    .more rfl rfl (.last rfl rfl)
  exact ⟨enough, runs, hruns, hfound 9 _ hothers ⟨_, List.mem_cons_self, _, _, _, rfl, rfl⟩⟩

/-- Unit 2 fails, unless unit 1 has run before: then it is no longer enabled. -/
abbrev earlyFailure : Program (Finset UnitId) :=
  checkedShots twoShots (fun u ran => decide (u = ⟨2⟩ → ⟨1⟩ ∉ ran)) fun u _ => decide (u = ⟨1⟩)

/-- A unit that a step on its own target has disabled makes no step that could race with it. -/
theorem earlyFailure_missed : earlyFailure.AlwaysEnds 0 ∧ earlyFailure.Commutes ∧
    earlyFailure.Proper ∧ earlyFailure.Brief ∧
    (∃ others, Explored 9 DepthFirst.strategy earlyFailure (.new 0) others ∧
      ∃ r ∈ others, EndsUnsafe r) ∧
    ∃ runs, Explored 9 PartialOrder.strategy earlyFailure (.new 0) runs ∧
      ∀ r ∈ runs, ¬ EndsUnsafe r := by
  refine ⟨oneShots_alwaysEnds checkedShots_addsUnit 0,
    oneShots_commutes_of_target (t := ⟨9⟩) (by decide), checkedShots_proper,
    oneShots_brief checkedShots_addsUnit, ⟨[_, _], .more rfl rfl (.last rfl rfl), _,
      List.mem_cons_of_mem _ List.mem_cons_self, _, _, _, rfl, rfl⟩,
    [_], .last rfl rfl, ?_⟩
  rintro r hr ⟨ending, ran, message, _, hbug⟩
  rw [List.mem_singleton.1 hr] at hbug
  cases hbug

end Classes
end Interleave
