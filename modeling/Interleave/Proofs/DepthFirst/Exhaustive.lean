import Mathlib.Data.Finset.Sort
import Mathlib.Data.Set.Finite.Basic
import Interleave.Proofs.DepthFirst.Trail
import Interleave.Proofs.Exploration
import Interleave.Strategy.Plan

/-!
# Interleave.Proofs.DepthFirst.Exhaustive

Depth-first search runs every maximal path of a finite choice tree once, in lexicographic order, and
then has nothing more to try.

* `walks_turn`: one request keeps the search on a path of the tree.
* `Ready.run`: from a path prefix a run goes down to a leaf, by first alternatives beyond it.
* `prepare_spec`: backtracking leads to the next maximal path, or there is none.
* `explored_from`: by induction on the paths still to come, the series of runs visits all of them.
* `depthFirst_runs_every_path`: all of this from a fresh search, and what a campaign makes of it.
-/

namespace Interleave

section Search

variable {σ : Type} {bound : Nat} {P : Program σ} {given : List Branching}

theorem reply_of_visit {r : Request} {s s' : DepthFirst} {i : Nat} {v : r.Reply}
    (hvisit : s.visit r.alternatives = (.ok i, s')) (hv : r.replies[i]? = some v) :
    s.reply r = (.ok v, s') := by
  cases r with
  | unit candidates current =>
    simp only [Request.replies] at hv
    simp only [Request.alternatives] at hvisit
    simp only [DepthFirst.reply]
    split
    · rename_i hnil
      rw [hnil] at hv
      cases hv
    · rename_i first rest hcons
      rw [hcons] at hv hvisit
      rw [hvisit]
      simp only [Except.map, List.getD_eq_getElem?_getD, hv, Option.getD_some]
  | boolean max =>
    simp only [Request.alternatives] at hvisit
    simp only [DepthFirst.reply, hvisit, Except.map]
    rcases i with _ | _ | i
    · cases hv; rfl
    · cases hv; rfl
    · cases hv
  | integer max =>
    simp only [Request.alternatives] at hvisit
    simp only [DepthFirst.reply, hvisit, Except.map]
    simp only [Request.replies, List.getElem?_map, Option.map_eq_some_iff] at hv
    obtain ⟨j, hj, rfl⟩ := hv
    obtain ⟨hlt, hij⟩ := List.getElem?_eq_some_iff.1 hj
    rw [← hij, List.getElem_range]

/-- A run of the search that follows the given branchings and goes on with first alternatives. -/
structure Walks (bound : Nat) (P : Program σ) (given : List Branching)
    (x : Juncture σ DepthFirst) : Prop where
  walked : Trail bound P (P.root bound) x.session.strategy.passed.reverse x.forget
  todo : ∃ y, Trail bound P x.forget x.session.strategy.ahead y
  fresh : ∃ new : List Branching, (∀ b ∈ new, b.taken = 0) ∧
    x.session.strategy.passed.reverse ++ x.session.strategy.ahead = given ++ new
  depth_eq : x.session.strategy.depth = x.session.trace.length
  length_eq : x.session.strategy.passed.length = x.session.strategy.depth
  bound_eq : x.session.strategy.bound = bound
  waiting : ∀ a, x = .inl a → a.Open DepthFirst.strategy.isFull P

theorem walks_of_visit {a : Pause σ DepthFirst} {b : Branching} {ahead : List Branching}
    {v : (a.place.request P).Reply} (h : Walks bound P given (.inl a))
    (hvisit : a.session.strategy.visit (a.place.request P).alternatives =
      (.ok b.taken, a.session.strategy.pass b ahead))
    (hb : b.alternatives = (a.place.request P).alternatives)
    (hv : (a.place.request P).replies[b.taken]? = some v)
    (htodo : ∃ y, Trail bound P (Pause.take bound P ⟨a.place, a.session.forget⟩ v) ahead y)
    (hfresh : ∃ new : List Branching, (∀ b ∈ new, b.taken = 0) ∧
      a.session.strategy.passed.reverse ++ b :: ahead = given ++ new) :
    Walks bound P given (a.turn DepthFirst.strategy P) := by
  have hreply := reply_of_visit hvisit hv
  have hturn : a.turn DepthFirst.strategy P =
      P.resume DepthFirst.strategy.isFull a.place (.ok v)
        { a.session with strategy := a.session.strategy.pass b ahead } := by
    simp only [Pause.turn, Pause.answered, Pause.answer, DepthFirst.strategy, Answer.blind, hreply]
    rfl
  have hdepth : a.session.strategy.depth = a.session.trace.length := h.depth_eq
  have hbound : a.session.strategy.bound = bound := h.bound_eq
  have hforget : (a.turn DepthFirst.strategy P).forget =
      Pause.take bound P ⟨a.place, a.session.forget⟩ v := by
    rw [hturn]
    refine forget_resume a.place v _ fun t hs ht => ?_
    have hlen : t.trace.length = a.session.trace.length + 1 := by
      rw [ht]
      simp
    show boundReached t.strategy.bound t.strategy.depth = boundReached bound t.trace.length
    rw [hs, hlen]
    show boundReached a.session.strategy.bound (a.session.strategy.depth + 1) = _
    rw [hdepth, hbound]
  have hframe : (a.turn DepthFirst.strategy P).session.strategy = a.session.strategy.pass b ahead ∧
      (a.turn DepthFirst.strategy P).session.trace = a.session.trace.push (a.place.choice P v) := by
    rw [hturn, resume_ok, (settle_framed _ P _ _).strategy, (settle_framed _ P _ _).trace]
    simp
  obtain ⟨hstrategy, htrace⟩ := hframe
  constructor
  · rw [hstrategy, hforget]
    show Trail bound P _ (b :: a.session.strategy.passed).reverse _
    rw [List.reverse_cons]
    exact h.walked.append (.cons hb hv .nil)
  · rw [hstrategy, hforget]
    exact htodo
  · rw [hstrategy]
    obtain ⟨new, hnew, heq⟩ := hfresh
    exact ⟨new, hnew, by simpa [DepthFirst.pass] using heq⟩
  · rw [hstrategy, htrace]
    show a.session.strategy.depth + 1 = _
    rw [hdepth]
    simp
  · rw [hstrategy]
    exact congrArg (· + 1) h.length_eq
  · rw [hstrategy]
    exact hbound
  · intro c hc
    obtain ⟨_, _, _, _, _, hopen⟩ := turn_eq_inl hc
    exact hopen

theorem walks_turn {a : Pause σ DepthFirst} (h : Walks bound P given (.inl a)) :
    Walks bound P given (a.turn DepthFirst.strategy P) := by
  obtain ⟨y, htodo⟩ := h.todo
  obtain ⟨new, hnew, hfresh⟩ := h.fresh
  change Trail bound P _ a.session.strategy.ahead y at htodo
  change a.session.strategy.passed.reverse ++ a.session.strategy.ahead = given ++ new at hfresh
  cases hahead : a.session.strategy.ahead with
  | nil =>
    -- beyond the end of the path the first alternative is taken
    have hpos : 0 < (a.place.request P).replies.length :=
      length_replies_pos (nothingEnabled_of_open (h.waiting a rfl))
    rw [hahead, List.append_nil] at hfresh
    refine walks_of_visit (b := ⟨(a.place.request P).alternatives, 0⟩) h (by
      simp [DepthFirst.visit, hahead]) rfl (List.getElem?_eq_getElem hpos) ⟨_, .nil⟩ ?_
    refine ⟨new ++ [⟨(a.place.request P).alternatives, 0⟩], ?_, by rw [hfresh]; simp⟩
    intro c hc
    rcases List.mem_append.1 hc with hc | hc
    · exact hnew c hc
    · rw [List.mem_singleton.1 hc]
  | cons b ahead =>
    rw [hahead] at htodo hfresh
    cases htodo with
    | cons hb hv htodo =>
      exact walks_of_visit h (by simp [DepthFirst.visit, hahead, hb]) hb hv ⟨_, htodo⟩
        ⟨new, hnew, hfresh⟩

/-- The search before a run that is to follow a walk from the root. -/
structure Ready (bound : Nat) (P : Program σ) (given : List Branching) (s : DepthFirst) :
    Prop where
  passed : s.passed = []
  ahead : s.ahead = given
  depth : s.depth = 0
  bound_eq : s.bound = bound
  trail : ∃ y, Trail bound P (P.root bound) given y

theorem Ready.new : Ready bound P [] (.new bound) := ⟨rfl, rfl, rfl, rfl, _, .nil⟩

theorem Ready.walks {s : DepthFirst} (h : Ready bound P given s) :
    Walks bound P given (P.opening DepthFirst.strategy s) := by
  have hframe := settle_framed DepthFirst.strategy.isFull P (P.start P.fresh) (.new s)
  have hforget : (P.opening DepthFirst.strategy s).forget = P.root bound := by
    refine forget_settle _ _ fun t hs ht => ?_
    show boundReached t.strategy.bound t.strategy.depth = boundReached bound t.trace.length
    rw [hs, ht]
    show boundReached s.bound s.depth = _
    rw [h.bound_eq, h.depth]
    rfl
  have hstrategy : (P.opening DepthFirst.strategy s).session.strategy = s := hframe.strategy
  constructor
  · rw [hstrategy, hforget, h.passed]
    exact .nil
  · rw [hstrategy, hforget, h.ahead]
    exact h.trail
  · rw [hstrategy, h.passed, h.ahead]
    exact ⟨[], by simp, by simp⟩
  · rw [hstrategy, h.depth, show (P.opening DepthFirst.strategy s).session.trace = .empty from
      hframe.trace]
    rfl
  · rw [hstrategy, h.passed, h.depth]
    rfl
  · rw [hstrategy]
    exact h.bound_eq
  · intro a ha
    exact settle_open _ P (fun _ _ => rfl) _ _ a ha

theorem Walks.trace_length_le {longest : Nat} {x : Juncture σ DepthFirst}
    (hlong : ∀ path, (P.along bound path).isSome → path.length ≤ longest)
    (h : Walks bound P given x) : x.session.trace.length ≤ longest := by
  have hpath := hlong (takenPath x.session.strategy.passed.reverse)
    (by unfold Program.along; rw [h.walked.follow]; rfl)
  rw [← h.depth_eq, ← h.length_eq]
  simpa [takenPath] using hpath

/-- A run ends, since each request makes its path longer and the tree bounds the length. -/
theorem walks_conclude {longest : Nat}
    (hlong : ∀ path, (P.along bound path).isSome → path.length ≤ longest) :
    ∀ (left : Nat) (x : Juncture σ DepthFirst), Walks bound P given x →
      longest < left + x.session.trace.length →
      ∃ r, x.Concludes DepthFirst.strategy P r ∧ Walks bound P given (.inr r) := by
  intro left
  induction left with
  | zero =>
    intro x h hleft
    have hle := h.trace_length_le hlong
    omega
  | succ left ih =>
    intro x h hleft
    cases x with
    | inr r => exact ⟨r, .ended, h⟩
    | inl a =>
      have hnext := walks_turn h
      cases hturn : a.turn DepthFirst.strategy P with
      | inr r =>
        rw [hturn] at hnext
        exact ⟨r, .turn (by rw [hturn]; exact .ended), hnext⟩
      | inl b =>
        rw [hturn] at hnext
        obtain ⟨v, _, _, htrace, _, _⟩ := turn_eq_inl hturn
        have hlen : b.session.trace.length = a.session.trace.length + 1 := by
          rw [htrace]
          simp
        change longest < left + 1 + a.session.trace.length at hleft
        obtain ⟨r, hr, hend⟩ := ih (.inl b) hnext (by
          show longest < left + b.session.trace.length
          omega)
        exact ⟨r, .turn (by rw [hturn]; exact hr), hend⟩

theorem Ready.run {s : DepthFirst} {longest : Nat}
    (hlong : ∀ path, (P.along bound path).isSome → path.length ≤ longest)
    (h : Ready bound P given s) :
    ∃ r fresh, (P.opening DepthFirst.strategy s).Concludes DepthFirst.strategy P r ∧
      (∀ b ∈ fresh, b.taken = 0) ∧ r.2.strategy.passed.reverse = given ++ fresh ∧
      r.2.strategy.bound = bound ∧
      Trail bound P (P.root bound) (given ++ fresh) (.inr (r.1, r.2.forget)) := by
  obtain ⟨r, hr, hend⟩ := walks_conclude hlong (longest + 1) _ h.walks (by omega)
  obtain ⟨fresh, hfresh, heq⟩ := hend.fresh
  obtain ⟨y, htodo⟩ := hend.todo
  have hahead : r.2.strategy.ahead = [] := htodo.of_inr.1
  change r.2.strategy.passed.reverse ++ r.2.strategy.ahead = given ++ fresh at heq
  rw [hahead, List.append_nil] at heq
  have hwalk := hend.walked
  change Trail bound P _ r.2.strategy.passed.reverse _ at hwalk
  rw [heq] at hwalk
  exact ⟨r, fresh, hr, hfresh, heq, hend.bound_eq, hwalk⟩

/-- Backtracking from a maximal path: none comes after it, or the search is ready for the least
one that does. -/
theorem prepare_spec {s : DepthFirst} {bs : List Branching} {r : Stop σ × Session Unit}
    (hs : s.passed.reverse = bs) (hbound : s.bound = bound)
    (h : Trail bound P (P.root bound) bs (.inr r)) :
    ((s.prepare).1 = false ∧ ∀ path, P.IsMaximal bound path → path ≤ takenPath bs) ∨
    ((s.prepare).1 = true ∧ ∃ given', Ready bound P given' s.prepare.2 ∧
      ∀ fresh r₂, (∀ b ∈ fresh, b.taken = 0) →
        Trail bound P (P.root bound) (given' ++ fresh) (.inr r₂) →
        takenPath bs < takenPath (given' ++ fresh) ∧
        ∀ path, P.IsMaximal bound path → takenPath bs < path →
          takenPath (given' ++ fresh) ≤ path) := by
  subst hs
  rcases backtrack_eq Branching.next? s.passed with
    ⟨hnil, hall⟩ | ⟨below, b, b', above, hpassed, hbelow, hb, hback⟩
  · refine .inl ⟨by simp [DepthFirst.prepare, hnil], ?_⟩
    rintro path ⟨r', hr'⟩
    exact le_last h (fun c hc => hall c (List.mem_reverse.1 hc)) hr'
  · have hrev : s.passed.reverse = above.reverse ++ b :: below.reverse := by
      rw [hpassed]
      simp
    have htaken : b'.taken = b.taken + 1 := by
      unfold Branching.next? at hb
      split at hb
      · cases hb; rfl
      · cases hb
    rw [hrev] at h
    obtain ⟨z, habove, hb_below⟩ := h.split
    refine .inr ⟨by simp [DepthFirst.prepare, hback], above.reverse ++ [b'], ?_, ?_⟩
    · obtain ⟨y, hmoved⟩ := hb_below.moved hb
      exact ⟨rfl, by simp [DepthFirst.prepare, hback], rfl, hbound, y, habove.append hmoved⟩
    · intro fresh r₂ hfresh h₂
      rw [List.append_assoc, List.singleton_append] at h₂ ⊢
      rw [hrev]
      refine ⟨takenPath_lt htaken, ?_⟩
      rintro path ⟨r', hr'⟩ hlt
      obtain ⟨z', habove', hmoved⟩ := h₂.split
      rw [← habove.unique habove'] at hmoved
      exact moved_le habove hb_below (fun c hc => hbelow c (List.mem_reverse.1 hc)) hmoved htaken
        hfresh hr' hlt

/-- A run and the path that it took. -/
def TakesPath (bound : Nat) (P : Program σ) (path : List Nat) (r : Stop σ × Session DepthFirst) :
    Prop :=
  P.RunsTo bound path (r.1, r.2.forget)

/-- What is greater than an element of an ascending list stands after it. -/
theorem mem_after_of_lt {α : Type} [Preorder α] {before after : List α} {a b : α}
    (hsorted : (before ++ a :: after).Pairwise (· < ·)) (hb : b ∈ before ++ a :: after)
    (hlt : a < b) : b ∈ after := by
  obtain ⟨_, _, hcross⟩ := List.pairwise_append.1 hsorted
  rcases List.mem_append.1 hb with hb | hb
  · exact absurd (lt_trans hlt (hcross _ hb a List.mem_cons_self)) (lt_irrefl _)
  · rcases List.mem_cons.1 hb with rfl | hb
    · exact absurd hlt (lt_irrefl _)
    · exact hb

/-- By induction on the maximal paths after the one that the search is ready for. -/
theorem explored_from {all : List (List Nat)} {longest : Nat}
    (hlong : ∀ path, (P.along bound path).isSome → path.length ≤ longest)
    (hsorted : all.Pairwise (· < ·)) (hall : ∀ path, path ∈ all ↔ P.IsMaximal bound path) :
    ∀ (after before : List (List Nat)) (path : List Nat) (given : List Branching) (s : DepthFirst),
      all = before ++ path :: after → Ready bound P given s →
      (∀ fresh r, (∀ b ∈ fresh, b.taken = 0) →
        Trail bound P (P.root bound) (given ++ fresh) (.inr r) →
        takenPath (given ++ fresh) = path) →
      ∃ fuel rs, Explored fuel DepthFirst.strategy P s rs ∧
        List.Forall₂ (TakesPath bound P) (path :: after) rs := by
  intro after
  induction after with
  | nil =>
    intro before path given s hsplit hready hpath
    obtain ⟨r, fresh, hr, hfresh, htaken, hbound, htrail⟩ := hready.run hlong
    obtain ⟨fuel, hdrive⟩ := drive_eq_some_iff.2 hr
    obtain rfl := hpath fresh _ hfresh htrail
    rcases prepare_spec htaken hbound htrail with ⟨hprepare, _⟩ | ⟨_, given', hready', hnext⟩
    · exact ⟨fuel, [r], .last hdrive hprepare, .cons htrail.follow .nil⟩
    · -- the path that the search would take next is not in the list
      obtain ⟨r', fresh', _, hfresh', _, _, htrail'⟩ := hready'.run hlong
      have hmem : takenPath (given' ++ fresh') ∈ all := (hall _).2 ⟨_, htrail'.follow⟩
      rw [hsplit] at hmem hsorted
      cases mem_after_of_lt hsorted hmem (hnext fresh' _ hfresh' htrail').1
  | cons next after ih =>
    intro before path given s hsplit hready hpath
    obtain ⟨r, fresh, hr, hfresh, htaken, hbound, htrail⟩ := hready.run hlong
    obtain ⟨fuel, hdrive⟩ := drive_eq_some_iff.2 hr
    obtain rfl := hpath fresh _ hfresh htrail
    have hmaximal : P.IsMaximal bound next := (hall next).1 (by rw [hsplit]; simp)
    have hascending := hsplit ▸ hsorted
    have hlater := List.pairwise_cons.1 (List.pairwise_append.1 hascending).2.1
    have hltnext : takenPath (given ++ fresh) < next := hlater.1 next List.mem_cons_self
    rcases prepare_spec htaken hbound htrail with ⟨_, hlast⟩ | ⟨hprepare, given', hready', hnext⟩
    · exact absurd hltnext (not_lt_of_ge (hlast next hmaximal))
    · have hpath' : ∀ fresh' r', (∀ b ∈ fresh', b.taken = 0) →
          Trail bound P (P.root bound) (given' ++ fresh') (.inr r') →
          takenPath (given' ++ fresh') = next := by
        intro fresh' r' hfresh' htrail'
        obtain ⟨hlt, hleast⟩ := hnext fresh' r' hfresh' htrail'
        refine le_antisymm (hleast next hmaximal hltnext) ?_
        have hmem : takenPath (given' ++ fresh') ∈ all := (hall _).2 ⟨_, htrail'.follow⟩
        rcases List.mem_cons.1 (mem_after_of_lt hascending (hsplit ▸ hmem) hlt) with heq | hmem
        · exact le_of_eq heq.symm
        · exact le_of_lt ((List.pairwise_cons.1 hlater.2).1 _ hmem)
      obtain ⟨fuel', rs, hrest, htakes⟩ := ih (before ++ [takenPath (given ++ fresh)]) next given' _
        (by rw [hsplit]; simp) hready' hpath'
      exact ⟨max fuel fuel', r :: rs,
        .more (drive_mono (Nat.le_max_left _ _) hdrive) hprepare
          (hrest.mono (Nat.le_max_right _ _)),
        .cons htrail.follow htakes⟩

/-- Whatever path a series begins with, all its runs take paths of the tree. -/
theorem exists_path_of_explored {longest fuel : Nat} {s : DepthFirst}
    {runs : List (Stop σ × Session DepthFirst)}
    (hlong : ∀ path, (P.along bound path).isSome → path.length ≤ longest)
    (h : Explored fuel DepthFirst.strategy P s runs) :
    ∀ {given : List Branching}, Ready bound P given s →
      ∀ r ∈ runs, ∃ path, TakesPath bound P path r := by
  induction h with
  | last hdrive _ =>
    intro given hready r hr
    obtain ⟨r', _, hr', _, _, _, htrail⟩ := hready.run hlong
    obtain rfl := hr'.unique (drive_eq_some_iff.1 ⟨fuel, hdrive⟩)
    rw [List.mem_singleton.1 hr]
    exact ⟨_, htrail.follow⟩
  | more hdrive hprepare _ ih =>
    intro given hready r hr
    obtain ⟨r', _, hr', _, htaken, hbound, htrail⟩ := hready.run hlong
    obtain rfl := hr'.unique (drive_eq_some_iff.1 ⟨fuel, hdrive⟩)
    rcases List.mem_cons.1 hr with rfl | hr
    · exact ⟨_, htrail.follow⟩
    · rcases prepare_spec htaken hbound htrail with ⟨hfalse, _⟩ | ⟨_, given', hready', _⟩
      · cases hfalse.symm.trans hprepare
      · exact ih hready' r hr

theorem exists_path_of_mem {paths : List (List Nat)} {runs : List (Stop σ × Session DepthFirst)}
    (h : List.Forall₂ (TakesPath bound P) paths runs) {r : Stop σ × Session DepthFirst}
    (hr : r ∈ runs) : ∃ path ∈ paths, TakesPath bound P path r := by
  induction h with
  | nil => cases hr
  | cons htakes _ ih =>
    rcases List.mem_cons.1 hr with rfl | hr
    · exact ⟨_, List.mem_cons_self, htakes⟩
    · obtain ⟨path, hpath, htakes'⟩ := ih hr
      exact ⟨path, List.mem_cons_of_mem _ hpath, htakes'⟩

theorem nodup_traces (hdistinct : P.DistinctUnits bound) {paths : List (List Nat)}
    {runs : List (Stop σ × Session DepthFirst)} (h : List.Forall₂ (TakesPath bound P) paths runs)
    (hpaths : paths.Nodup) : (runs.map fun r => r.2.trace).Nodup := by
  induction h with
  | nil => exact List.nodup_nil
  | @cons path r paths runs htakes h ih =>
    obtain ⟨hnot, hpaths⟩ := List.nodup_cons.1 hpaths
    refine List.nodup_cons.2 ⟨fun hmem => ?_, ih hpaths⟩
    obtain ⟨r', hr', htrace⟩ := List.mem_map.1 hmem
    obtain ⟨path', hpath', htakes'⟩ := exists_path_of_mem h hr'
    have heq : path' = path :=
      path_eq_of_trace_eq hdistinct htrace (follow_nil _) htakes' htakes
    exact hnot (heq ▸ hpath')

theorem campaignPlan_depthFirst {c : Configuration} (drawn : UInt64) (hvalid : c.validate = .ok ())
    (hkind : c.strategy = .depthFirst) (hcycles : c.detectCycles = false) :
    c.campaignPlan drawn = .ok (.depthFirst (c.stepBound false)) := by
  unfold Configuration.campaignPlan Configuration.plan Configuration.basePlan
  rw [hvalid, hkind, hcycles]
  rfl

/-- Where the choice tree is finite, a fresh search runs its maximal paths, each once and in
lexicographic order, without a divergence, and stops after the last one. A campaign makes these
runs, as many as it may. -/
theorem depthFirst_runs_every_path (hfin : {path | (P.along bound path).isSome}.Finite) :
    ∃ paths : List (List Nat), paths.Pairwise (· < ·) ∧
      (∀ path, path ∈ paths ↔ P.IsMaximal bound path) ∧
      ∃ (runs : List (Stop σ × Session DepthFirst)) (enough : Nat),
        List.Forall₂ (TakesPath bound P) paths runs ∧
        (∀ r ∈ runs, r.2.divergence = none) ∧
        (P.DistinctUnits bound → (runs.map fun r => r.2.trace).Nodup) ∧
        (∀ fuel, enough ≤ fuel → Explored fuel DepthFirst.strategy P (.new bound) runs) ∧
        ∀ {η : Type} (H : Host η) (host : η) (c : Configuration) (drawn : UInt64),
          (∀ h, H.cancelled h = false) → c.validate = .ok () → c.strategy = .depthFirst →
          c.detectCycles = false → c.timeout = none → c.stepBound false = bound →
          c.campaignPlan drawn = .ok (.depthFirst bound) ∧
          ∀ fuel, enough ≤ fuel → ∃ report s host',
            Campaign.run fuel (Plan.depthFirst bound).strategy P H c (Plan.depthFirst bound).start
              host = some (.ok report, s, host') ∧
            report.schedules = min c.iterations.toNat paths.length := by
  have hlong : ∀ path, (P.along bound path).isSome →
      path.length ≤ hfin.toFinset.sup List.length := fun path hpath =>
    Finset.le_sup (hfin.mem_toFinset.2 hpath)
  have hmaximal : {path | P.IsMaximal bound path}.Finite := by
    refine hfin.subset fun path hpath => ?_
    obtain ⟨r, hr⟩ := hpath
    show (P.along bound path).isSome
    rw [hr]
    rfl
  let paths := hmaximal.toFinset.sort
  have hsorted : paths.Pairwise (· < ·) := (Finset.sortedLT_sort _).pairwise
  have hall : ∀ path, path ∈ paths ↔ P.IsMaximal bound path := by simp [paths]
  obtain ⟨r, fresh, _, hfresh, _, _, htrail⟩ := (Ready.new (P := P)).run hlong
  have hfirst : takenPath fresh ∈ paths := (hall _).2 ⟨_, htrail.follow⟩
  obtain ⟨path, after, hcons⟩ : ∃ path after, paths = path :: after :=
    List.exists_cons_of_ne_nil (List.ne_nil_of_mem hfirst)
  have hleast : ∀ q ∈ paths, path ≤ q := by
    intro q hq
    rw [hcons] at hq hsorted
    rcases List.mem_cons.1 hq with rfl | hq
    · exact le_refl _
    · exact le_of_lt ((List.pairwise_cons.1 hsorted).1 q hq)
  obtain ⟨fuel, runs, hruns, htakes⟩ := explored_from hlong hsorted hall after [] path []
    (.new bound) hcons Ready.new fun fresh' r' hfresh' htrail' => by
      obtain ⟨q, hq⟩ := (hall path).1 (by rw [hcons]; exact List.mem_cons_self)
      exact le_antisymm (first_le htrail' hfresh' hq)
        (hleast _ ((hall _).2 ⟨_, htrail'.follow⟩))
  rw [← hcons] at htakes
  have hdiv : ∀ r ∈ runs, r.2.divergence = none := by
    intro r hr
    obtain ⟨_, _, hpath⟩ := exists_path_of_mem htakes hr
    exact runsTo_consistent hpath
  refine ⟨paths, hsorted, hall, runs, max fuel (runs.length + 1), htakes, hdiv, ?_, ?_, ?_⟩
  · exact fun hdistinct => nodup_traces hdistinct htakes (hsorted.imp fun h => ne_of_lt h)
  · exact fun n hn => hruns.mono (le_trans (Nat.le_max_left _ _) hn)
  · intro η H host c drawn hcancel hvalid hkind hcycles htimeout hbound
    refine ⟨by rw [← hbound]; exact campaignPlan_depthFirst drawn hvalid hkind hcycles, ?_⟩
    intro n hn
    rw [htakes.length_eq]
    exact run_of_explored (S := DepthFirst.strategy) host htimeout hcancel
      (hruns.mono (le_trans (Nat.le_max_left _ _) hn)) hdiv (by omega)

end Search

/-- A boolean is chosen, then one unit runs once. -/
def onceAfterBoolean : Program Bool where
  fresh := false
  start ran := .ask (.boolean 2) fun _ => .finish ran
  units ran := [⟨⟨1⟩, .actor, !ran, none⟩]
  current _ := none
  execute _ _ := .finish true
  hotMonitors _ := []
  label _ _ := "unit"

theorem onceAfterBoolean_distinct (bound : Nat) : onceAfterBoolean.DistinctUnits bound := by
  intro path ran s _
  cases ran <;> simp [onceAfterBoolean, enabledIds]

theorem onceAfterBoolean_isMaximal (path : List Nat) :
    path ∈ [[0, 0], [1, 0]] ↔ onceAfterBoolean.IsMaximal 5 path := by
  constructor
  · intro h
    rcases List.mem_cons.1 h with rfl | h
    · exact ⟨_, rfl⟩
    · rw [List.mem_singleton.1 h]
      exact ⟨_, rfl⟩
  · rintro ⟨r, h⟩
    obtain ⟨i, rest, v, rfl, hv, h⟩ := follow_inl_eq_inr h
    match i, hv with
    | 0, hv =>
      cases hv
      obtain ⟨j, rest, w, rfl, hw, h⟩ := follow_inl_eq_inr h
      match j, hw with
      | 0, hw =>
        cases hw
        rw [(follow_inr h).1]
        simp
    | 1, hv =>
      cases hv
      obtain ⟨j, rest, w, rfl, hw, h⟩ := follow_inl_eq_inr h
      match j, hw with
      | 0, hw =>
        cases hw
        rw [(follow_inr h).1]
        simp

def quietHost : Host Unit := ⟨id, id, id, fun _ => false, fun _ => .zero⟩

def tenRuns : Configuration :=
  { strategy := .depthFirst, unfairStepBound := 5, iterations := 10 }

theorem depthFirst_runs_both_booleans :
    ∃ (runs : List (Stop Bool × Session DepthFirst)) (enough : Nat),
      List.Forall₂ (TakesPath 5 onceAfterBoolean) [[0, 0], [1, 0]] runs ∧
      (runs.map fun r => r.2.trace).Nodup ∧
      (∀ fuel, enough ≤ fuel → Explored fuel DepthFirst.strategy onceAfterBoolean (.new 5) runs) ∧
      ∃ report s host, Campaign.run enough (Plan.depthFirst 5).strategy onceAfterBoolean quietHost
          tenRuns (Plan.depthFirst 5).start () = some (.ok report, s, host) ∧
        report.schedules = 2 := by
  obtain ⟨paths, hsorted, hall, runs, enough, htakes, _, htraces, hruns, hcampaign⟩ :=
    depthFirst_runs_every_path (P := onceAfterBoolean) (finite_along (by decide : 0 < 5))
  have heq : paths = [[0, 0], [1, 0]] :=
    hsorted.eq_of_mem_iff (by decide) fun path =>
      (hall path).trans (onceAfterBoolean_isMaximal path).symm
  rw [heq] at htakes
  have hdone := (hcampaign quietHost () tenRuns 0 (fun _ => rfl) rfl rfl rfl rfl rfl).2 enough
    (le_refl _)
  rw [heq] at hdone
  exact ⟨runs, enough, htakes, htraces (onceAfterBoolean_distinct 5), hruns, hdone⟩

end Interleave
