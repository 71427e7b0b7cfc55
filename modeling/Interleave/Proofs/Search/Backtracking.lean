import Interleave.Proofs.DepthFirst.Exhaustive
import Interleave.Proofs.PartialOrder.Path
import Interleave.Proofs.Search.Proceeding

/-!
# Interleave.Proofs.Search.Backtracking

Searches that go back to the deepest choice with something left to try, told by exchanges and for
all requests, whatever they offer. `Strategy.Backtracks` says what a search answers and what path it
is left with when a run is closed: none, or one that the run has gone too, except for its last
exchange.

* `depthFirst_backtracks`, `partialOrder_backtracks`: both searches are such. Where there are more
  units than slots, partial-order search has no answer and keeps its path.
-/

namespace Interleave

section Backtracking

variable {τ : Type}

/-- A path that goes along a given one and takes another reply at its end, or the empty one. -/
def Backtracked (passed given : List Exchange) : Prop :=
  given = [] ∨ ∃ above e below, ∃ w ∈ e.request.replies,
    passed = above ++ e :: below ∧ given = above ++ [⟨e.request, w⟩]

/-- `Keeps s passed ahead` says that a run has made the exchanges `passed` and is still to follow
the exchanges `ahead`. -/
structure Strategy.Backtracks (S : Strategy τ) (bound : Nat)
    (Keeps : τ → List Exchange → List Exchange → Prop) : Prop where
  blind : ∀ r scene s, (S.answer r scene s).observer = scene.observer
  steps : ∀ {s passed ahead}, Keeps s passed ahead → S.steps s = passed.length
  atBound : ∀ {s passed ahead}, Keeps s passed ahead →
    S.atBound s = boundReached bound passed.length
  follow : ∀ {s passed e ahead} scene, Keeps s passed (e :: ahead) →
    (S.answer e.request scene s).result = .ok e.reply ∧
      Keeps (S.answer e.request scene s).state (passed ++ [e]) ahead
  extend : ∀ {s passed} (r : Request) scene, Keeps s passed [] → r.replies ≠ [] →
    (∃ v ∈ r.replies, (S.answer r scene s).result = .ok v ∧
      Keeps (S.answer r scene s).state (passed ++ [⟨r, v⟩]) []) ∨
    (S.answer r scene s).result = .error .exhausted ∧ Keeps (S.answer r scene s).state passed []
  prepare : ∀ {s passed}, Keeps s passed [] →
    ∃ given, Keeps (S.prepare s).2 [] given ∧ Backtracked passed given
  reset : ∀ {s passed ahead}, Keeps s passed ahead → Keeps (S.reset s) [] []

/-- What a branching takes makes this exchange. -/
def Branching.Fits (b : Branching) (e : Exchange) : Prop :=
  b.alternatives = e.request.alternatives ∧ e.request.replies[b.taken]? = some e.reply

/-- A branching with an alternative left makes another exchange for the same request. -/
theorem Branching.Fits.next {b b' : Branching} {e : Exchange} (h : b.Fits e)
    (hnext : b.next? = some b') : ∃ w ∈ e.request.replies, b'.Fits ⟨e.request, w⟩ := by
  unfold Branching.next? at hnext
  split at hnext
  · rename_i hlt
    cases hnext
    rw [h.1, count_alternatives] at hlt
    exact ⟨_, List.getElem_mem hlt, h.1, List.getElem?_eq_getElem hlt⟩
  · cases hnext

/-- The path of a depth-first search as exchanges. -/
structure DepthFirst.Keeps (bound : Nat) (s : DepthFirst) (passed ahead : List Exchange) :
    Prop where
  bound_eq : s.bound = bound
  depth_eq : s.depth = passed.length
  passed : List.Forall₂ Branching.Fits s.passed.reverse passed
  ahead : List.Forall₂ Branching.Fits s.ahead ahead

namespace DepthFirst

variable {bound : Nat}

theorem keeps_new : (new bound).Keeps bound [] [] := ⟨rfl, rfl, .nil, .nil⟩

theorem Keeps.pass {s : DepthFirst} {passed ahead : List Exchange} {b : Branching}
    {bs : List Branching} {e : Exchange} (hbound : s.bound = bound)
    (hdepth : s.depth = passed.length)
    (hpassed : List.Forall₂ Branching.Fits s.passed.reverse passed) (hb : b.Fits e)
    (hbs : List.Forall₂ Branching.Fits bs ahead) :
    (s.pass b bs).Keeps bound (passed ++ [e]) ahead := by
  refine ⟨hbound, by simp [DepthFirst.pass, hdepth], ?_, hbs⟩
  show List.Forall₂ Branching.Fits (b :: s.passed).reverse _
  rw [List.reverse_cons]
  exact List.rel_append hpassed (.cons hb .nil)

theorem Keeps.prepare {s : DepthFirst} {passed : List Exchange} (h : s.Keeps bound passed []) :
    ∃ given, s.prepare.2.Keeps bound [] given ∧ Backtracked passed given := by
  rcases backtrack_eq Branching.next? s.passed with
    ⟨hnil, _⟩ | ⟨below, b, b', above, hsplit, _, hnext, hback⟩
  · exact ⟨[], ⟨h.bound_eq, rfl, .nil, by simp [DepthFirst.prepare, hnil]⟩, .inl rfl⟩
  · have hpassed := h.passed
    rw [hsplit, List.reverse_append, List.reverse_cons, List.append_assoc,
      List.singleton_append] at hpassed
    obtain ⟨above', e, below', rfl, habove, hb, _⟩ := forall₂_split hpassed
    obtain ⟨w, hw, hb'⟩ := hb.next hnext
    refine ⟨above' ++ [⟨e.request, w⟩], ⟨h.bound_eq, rfl, .nil, ?_⟩,
      .inr ⟨above', e, below', w, hw, rfl, rfl⟩⟩
    have hahead : s.prepare.2.ahead = above.reverse ++ [b'] := by simp [DepthFirst.prepare, hback]
    rw [hahead]
    exact List.rel_append habove (.cons hb' .nil)

end DepthFirst

theorem depthFirst_backtracks {bound : Nat} :
    DepthFirst.strategy.Backtracks bound (DepthFirst.Keeps bound) where
  blind _ _ _ := rfl
  steps h := h.depth_eq
  atBound {s passed ahead} h := by
    show boundReached s.bound s.depth = _
    rw [h.bound_eq, h.depth_eq]
  follow {s passed e ahead} scene h := by
    have hahead := h.ahead
    generalize hs : s.ahead = bs at hahead
    cases hahead with
    | @cons b _ bs _ hb hbs =>
      have hvisit : s.visit e.request.alternatives = (.ok b.taken, s.pass b bs) := by
        simp [DepthFirst.visit, hs, hb.1]
      show (s.reply e.request).1 = _ ∧ (s.reply e.request).2.Keeps bound _ _
      rw [reply_of_visit hvisit hb.2]
      exact ⟨rfl, .pass h.bound_eq h.depth_eq h.passed hb hbs⟩
  extend {s passed} r scene h hne := by
    have hahead := h.ahead
    generalize hs : s.ahead = bs at hahead
    cases hahead
    have hfirst : r.replies[0]? = some _ := List.getElem?_eq_getElem (List.length_pos_iff.2 hne)
    have hvisit : s.visit r.alternatives =
        (.ok (Branching.mk r.alternatives 0).taken, s.pass ⟨r.alternatives, 0⟩ []) := by
      simp [DepthFirst.visit, hs]
    refine .inl ⟨_, List.mem_of_getElem? hfirst, ?_⟩
    show (s.reply r).1 = _ ∧ (s.reply r).2.Keeps bound _ _
    rw [reply_of_visit hvisit hfirst]
    exact ⟨rfl, .pass h.bound_eq h.depth_eq h.passed ⟨rfl, hfirst⟩ .nil⟩
  prepare h := h.prepare
  reset {s _ _} h := by
    rw [← h.bound_eq]
    exact DepthFirst.keeps_new

namespace PartialOrder

variable {bound : Nat} {all : List UnitId} {s : PartialOrder} {log : List (Visit × Exchange)}
  {plan : List (Fork × Exchange)}

theorem Logs.known_by {all' : List UnitId} (h : s.Logs bound all log plan)
    (hknown : ∀ u ∈ s.units, u ∈ all') : s.Logs bound all' log plan :=
  ⟨h.bound_eq, ⟨h.knows.nodup, hknown⟩, h.sound, h.passed_eq, h.ahead_eq, h.records, h.fits,
    h.depth_eq⟩

theorem within_of_offers {f : Fork} {k : Nat} {e : Exchange} (h : f.Offers s.units k e)
    (hknows : s.Knows all) : Within all e.request := by
  cases h with
  | unit hset _ _ =>
    intro candidates current hrequest u hu
    cases hrequest
    exact hknows.known u (hset.known u hu)
  | boolean _ _ => intro candidates current hrequest; cases hrequest
  | integer _ _ => intro candidates current hrequest; cases hrequest

/-- All units on the path have slots. -/
theorem Logs.allWithin (h : s.Logs bound all log plan) :
    AllWithin all (log.map Prod.snd ++ plan.map Prod.snd) := by
  intro e he
  rcases List.mem_append.1 he with he | he
  · obtain ⟨m, hm, rfl⟩ := List.mem_map.1 he
    exact within_of_offers (h.records m hm).fits h.knows
  · obtain ⟨m, hm, rfl⟩ := List.mem_map.1 he
    exact within_of_offers (h.fits m hm) h.knows

/-- The path of a partial-order search, whose units have got slots. -/
def Walked (bound : Nat) (s : PartialOrder) (passed ahead : List Exchange) : Prop :=
  ∃ all : List UnitId, all.length ≤ maxSlots ∧ Keeps bound all s passed ahead

theorem walked_new : (new bound).Walked bound [] [] :=
  ⟨[], Nat.zero_le _, [], [], logs_new, trivial, rfl, rfl⟩

/-- Something that exchanges and new units keep of a path. -/
structure Kept (bound : Nat)
    (J : PartialOrder → List (Visit × Exchange) → List (Fork × Exchange) → Prop) : Prop where
  makes : ∀ {all s log plan f e rest s'}, s.Logs bound all log plan → J s log plan →
    Here plan f e rest → s.Makes bound all log plan rest f e s' →
    ∃ log', s'.Logs bound all log' rest ∧ J s' log' rest ∧
      log'.map Prod.snd = log.map Prod.snd ++ [e]
  joined : ∀ {s t log plan}, J s log plan → s.Joined t → J t log plan

/-- The path of a partial-order search, whose units have got slots, and something further. -/
def WalkedWith (bound : Nat)
    (J : PartialOrder → List (Visit × Exchange) → List (Fork × Exchange) → Prop)
    (s : PartialOrder) (passed ahead : List Exchange) : Prop :=
  ∃ all : List UnitId, all.length ≤ maxSlots ∧ KeepsWith bound all J s passed ahead

variable {J : PartialOrder → List (Visit × Exchange) → List (Fork × Exchange) → Prop}

theorem Kept.follows (hJ : Kept bound J) (hall : all.length ≤ maxSlots) :
    PartialOrder.strategy.Follows bound (AllWithin all) (KeepsWith bound all J) :=
  follows_with hall (fun _ h => h) fun hlogs hkeeps hhere hmakes _ =>
    hJ.makes hlogs hkeeps hhere hmakes

theorem kept_true : Kept bound fun _ _ _ => True where
  makes hlogs _ hhere hmakes := by
    obtain ⟨log', v, hlogs', hmarked, _⟩ := hmakes.logs hhere
    exact ⟨_, hlogs', trivial, by simp [map_snd_of_marked hmarked]⟩
  joined _ _ := trivial

/-- A request for known units only is answered beyond the end of the path. -/
theorem Kept.extend (hJ : Kept bound J) {passed : List Exchange} {r : Request} (scene : Scene)
    (hall : all.length ≤ maxSlots) (h : KeepsWith bound all J s passed []) (hne : r.replies ≠ [])
    (hids : Within all r) :
    ∃ v ∈ r.replies, (PartialOrder.strategy.answer r scene s).result = .ok v ∧
      WalkedWith bound J (PartialOrder.strategy.answer r scene s).state (passed ++ [⟨r, v⟩])
        [] := by
  have hpassed : AllWithin all passed := by
    obtain ⟨log, plan, hlogs, _, rfl, hplan⟩ := h
    exact fun e he => hlogs.allWithin e (List.mem_append_left _ he)
  obtain ⟨v, hv, hresult, hkeeps⟩ := (hJ.follows hall).extend r scene h hne fun v _ e he => by
    rcases List.mem_append.1 he with he | he
    · exact hpassed e he
    · rw [List.mem_singleton.1 he]
      exact hids
  exact ⟨v, hv, hresult, all, hall, hkeeps⟩

/-- Where a unit gets no slot there is no answer, and the path is kept. -/
theorem Kept.proceeds (hJ : Kept bound J) :
    PartialOrder.strategy.Proceeds bound (WalkedWith bound J) where
  blind _ _ _ := rfl
  atBound h := by
    obtain ⟨all, hall, hkeeps⟩ := h
    exact (hJ.follows hall).atBound hkeeps
  follow {s passed e ahead} scene h := by
    obtain ⟨all, hall, hkeeps⟩ := h
    obtain ⟨hresult, hkeeps'⟩ := (hJ.follows hall).follow scene hkeeps (by
      obtain ⟨log, plan, hlogs, _, rfl, hplan⟩ := hkeeps
      refine fun e' he' => hlogs.allWithin e' ?_
      rw [hplan]
      rcases List.mem_append.1 he' with he' | he'
      · exact List.mem_append_left _ he'
      · exact List.mem_append_right _ (by rw [List.mem_singleton.1 he']; exact List.mem_cons_self))
    exact ⟨hresult, all, hall, hkeeps'⟩
  extend {s passed} r scene h hne := by
    obtain ⟨all, hall, hkeeps⟩ := h
    cases r with
    | boolean max => exact .inl (hJ.extend scene hall hkeeps hne fun _ _ h => by cases h)
    | integer max => exact .inl (hJ.extend scene hall hkeeps hne fun _ _ h => by cases h)
    | unit candidates current =>
      obtain ⟨log, plan, hlogs, hkeeps, rfl, hplan⟩ := hkeeps
      obtain ⟨hjoined, hnodup, hunits⟩ :=
        PartialOrder.trackAll_joined (enabledIds candidates) s .empty hlogs.knows.nodup
      have hgrown := (trackAll_spec (enabledIds candidates) s .empty hlogs.sound.slots).1
      generalize htrack : s.trackAll .empty (enabledIds candidates) = tracked
        at hjoined hnodup hunits hgrown
      obtain ⟨found, t⟩ := tracked
      have hslots : t.units.length ≤ maxSlots := by
        rw [PartialOrder.units, List.length_map]
        exact hgrown.slots hlogs.sound.slots
      cases found with
      | some set =>
        -- the units of this request are known from now on
        have hlogs' := hlogs.known_by fun u hu => hjoined.units.subset hu
        refine .inl (hJ.extend scene hslots ⟨log, plan, hlogs', hkeeps, rfl, hplan⟩ hne ?_)
        intro candidates' current' hrequest u hu
        cases hrequest
        exact hunits (by simp) u hu
      | none =>
        have hvisit : s.visitUnit candidates = (.error .exhausted, t) := by
          simp [PartialOrder.visitUnit, htrack]
        refine .inr ?_
        show (s.visitUnit candidates).1 = _ ∧ WalkedWith bound J (s.visitUnit candidates).2 _ _
        rw [hvisit]
        refine ⟨rfl, t.units, hslots, log, plan, ?_, hJ.joined hkeeps hjoined, rfl, hplan⟩
        exact (hlogs.known_by fun u hu => hjoined.units.subset hu).joined hjoined
          ⟨hnodup, fun _ => id⟩ (hgrown.sound hlogs.sound)

end PartialOrder

theorem partialOrder_backtracks {bound : Nat} :
    PartialOrder.strategy.Backtracks bound (PartialOrder.Walked bound) where
  blind _ _ _ := rfl
  steps {s _ _} h := by
    obtain ⟨all, _, log, plan, hlogs, _, rfl, _⟩ := h
    show s.depth = _
    rw [hlogs.depth_eq, List.length_map]
  atBound := PartialOrder.kept_true.proceeds.atBound
  follow := PartialOrder.kept_true.proceeds.follow
  extend := PartialOrder.kept_true.proceeds.extend
  prepare {s passed} h := by
    obtain ⟨all, hall, log, plan, hlogs, _, rfl, hplan⟩ := h
    obtain rfl : plan = [] := by simpa using hplan
    rcases hlogs.prepare with ⟨_, _, hlogs'⟩ |
      ⟨_, above, m, below, f, w, hw, rfl, _, _, hlogs'⟩
    · exact ⟨[], ⟨all, hall, [], [], hlogs', trivial, rfl, rfl⟩, .inl rfl⟩
    · refine ⟨_, ⟨all, hall, [], _, hlogs', trivial, rfl, rfl⟩,
        .inr ⟨above.map Prod.snd, m.2, below.map Prod.snd, w, hw, by simp, ?_⟩⟩
      simp [Function.comp_def]
  reset {s _ _} h := by
    obtain ⟨all, _, log, plan, hlogs, _⟩ := h
    rw [← hlogs.bound_eq]
    exact PartialOrder.walked_new

end Backtracking
end Interleave
