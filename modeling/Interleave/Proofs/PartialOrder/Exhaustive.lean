import Mathlib.Data.Finset.Card
import Mathlib.Data.Set.Finite.Basic
import Interleave.Proofs.Exploration
import Interleave.Proofs.PartialOrder.Races

/-!
# Interleave.Proofs.PartialOrder.Exhaustive

Partial-order search until it has nothing more to try: the runs that it makes meet each other's
demands.

* `PartialOrder.Closed`, `PartialOrder.Promised`: exchanges that earlier runs have made after the
  first part of a path, and those that are still to be made there.
* `Ready.run`: a run follows the path and plans what it demands.
* `closed_of_moved`, `promised_or_made`: what becomes of them when the path is moved on.
* `explored_ready`: by induction on the walks that are not yet closed, the runs to come make the
  promised exchanges and those that they demand themselves.
* `partialOrder_explores`: all of this from a fresh search.
-/

namespace Interleave

/-- What is demanded answers the request that the run answered there. -/
theorem Demands.request {es pre : List Exchange} {e : Exchange} (h : Demands es pre e) :
    ∃ e₀ post, es = pre ++ e₀ :: post ∧ e.request = e₀.request := by
  cases h with
  | value _ _ => exact ⟨_, _, rfl, rfl⟩
  | race _ _ _ _ _ => exact ⟨_, _, rfl, rfl⟩

/-- A place in two lists one after the other is in the second one or a place in the first. -/
theorem place_of_append {α : Type} {xs ys before after : List α} {x : α}
    (h : xs ++ ys = before ++ x :: after) : x ∈ ys ∨ ∃ rest, xs = before ++ x :: rest := by
  rcases List.append_eq_append_iff.1 h with ⟨more, _, hys⟩ | ⟨more, hxs, hmore⟩
  · exact .inl (by rw [hys]; simp)
  · cases more with
    | nil => exact .inl (by rw [List.nil_append] at hmore; rw [← hmore]; exact List.mem_cons_self)
    | cons y more =>
      obtain ⟨rfl, _⟩ := List.cons.inj hmore
      exact .inr ⟨more, hxs⟩

/-- Two places in a list: the second one is before the first, it is the same, or it is after it. -/
theorem compare_places {α : Type} {xs ys xs' ys' : List α} {x x' : α}
    (h : xs ++ x :: ys = xs' ++ x' :: ys') :
    (∃ zs, xs = xs' ++ x' :: zs) ∨ (xs = xs' ∧ x = x' ∧ ys = ys') ∨
      ∃ zs, ys = zs ++ x' :: ys' ∧ xs' = xs ++ x :: zs := by
  rcases List.append_eq_append_iff.1 h with ⟨zs, hxs', hcons⟩ | ⟨zs, hxs, hcons⟩
  · cases zs with
    | nil =>
      obtain ⟨rfl, rfl⟩ := List.cons.inj hcons
      exact .inr (.inl ⟨by rw [hxs', List.append_nil], rfl, rfl⟩)
    | cons z zs =>
      obtain ⟨rfl, hys⟩ := List.cons.inj hcons
      exact .inr (.inr ⟨zs, hys, hxs'⟩)
  · cases zs with
    | nil =>
      obtain ⟨rfl, rfl⟩ := List.cons.inj hcons
      exact .inr (.inl ⟨by rw [hxs, List.append_nil], rfl, rfl⟩)
    | cons z zs =>
      obtain ⟨rfl, _⟩ := List.cons.inj hcons
      exact .inl ⟨zs, hxs⟩

theorem Fork.Offers.unique {units : List UnitId} {f : Fork} {k : Nat} {e e' : Exchange}
    (h : f.Offers units k e) (h' : f.Offers units k e') (hrequest : e'.request = e.request) :
    e' = e := by
  obtain ⟨r, v⟩ := e
  obtain ⟨r', v'⟩ := e'
  obtain rfl : r' = r := hrequest
  cases h with
  | unit _ _ hk =>
    cases h' with
    | unit _ _ hk' =>
      rw [hk] at hk'
      cases hk'
      rfl
  | boolean _ _ => cases h'; rfl
  | integer _ _ => cases h'; rfl

/-- An alternative was the same one when the table of units was smaller. -/
theorem Fork.Offers.shrink {units units' : List UnitId} {f : Fork} {j k : Nat} {e e₀ : Exchange}
    (h : f.Offers units' k e) (h₀ : f.Offers units j e₀) (hrequest : e.request = e₀.request)
    (hgrow : units <+: units') (hnodup : units'.Nodup) : f.Offers units k e := by
  cases h with
  | boolean hcount hk => exact .boolean hcount hk
  | integer hcount hk => exact .integer hcount hk
  | @unit b _ candidates current u hset hu hk =>
    obtain ⟨r₀, v₀⟩ := e₀
    obtain rfl : Request.unit candidates current = r₀ := hrequest
    cases h₀ with
    | unit hset₀ _ _ =>
      refine .unit hset₀ hu ?_
      obtain ⟨i, hi⟩ := List.getElem?_of_mem (hset₀.known u hu)
      obtain ⟨new, rfl⟩ := hgrow
      have hi' : (units ++ new)[i]? = some u := by
        rw [List.getElem?_append_left (List.getElem?_eq_some_iff.1 hi).1]
        exact hi
      have heq : i = k :=
        (List.getElem?_inj (List.getElem?_eq_some_iff.1 hi').1 hnodup).1 (hi'.trans hk.symm)
      rw [← heq]
      exact hi

namespace PartialOrder

variable {σ : Type} {P : Program σ} {bound : Nat} {all : List UnitId} {units : List UnitId}

/-- An earlier run has made this exchange after the first part of the path. -/
def Closed (units : List UnitId) (plan : List (Fork × Exchange)) (pre : List Exchange)
    (e : Exchange) : Prop :=
  ∃ above m below k, plan = above ++ m :: below ∧ above.map Prod.snd = pre ∧
    e.request = m.2.request ∧ m.1.Offers units k e ∧ m.1.Spent k ∧ k ≠ m.1.taken

/-- This exchange is to be made after the first part of the path. -/
def Promised (units : List UnitId) (plan : List (Fork × Exchange)) (pre : List Exchange)
    (e : Exchange) : Prop :=
  ∃ above m below k, plan = above ++ m :: below ∧ above.map Prod.snd = pre ∧
    e.request = m.2.request ∧ m.1.Offers units k e ∧ m.1.Plans k

/-- Some run makes this exchange after these. -/
def Made (walks : List (List Exchange)) (pre : List Exchange) (e : Exchange) : Prop :=
  ∃ es ∈ walks, pre ++ [e] <+: es

/-- A walk that only an earlier run could have made. -/
def Barred (units : List UnitId) (plan : List (Fork × Exchange)) (es : List Exchange) : Prop :=
  ∃ pre e, Closed units plan pre e ∧ pre ++ [e] <+: es

/-- The log of a run that took each fork of a path, or a new fork. -/
def Logged (plan : List (Fork × Exchange)) (log : List (Visit × Exchange)) : Prop :=
  ∃ new, (∀ m ∈ new, m.1.Fresh) ∧
    List.Forall₂ (fun (m : Fork × Exchange) m' => m'.2 = m.2 ∧ m'.1.Takes m.1) (plan ++ new) log

theorem logged_of_tracks {plan : List (Fork × Exchange)} {log : List (Visit × Exchange)}
    (h : Tracks plan log []) : Logged plan log := by
  obtain ⟨done, new, hsplit, hfresh, htaken⟩ := h
  rw [List.append_nil] at hsplit
  subst hsplit
  exact ⟨new, hfresh, htaken⟩

theorem map_snd_of_logged {plan : List (Fork × Exchange)} {log : List (Visit × Exchange)}
    (h : List.Forall₂ (fun (m : Fork × Exchange) m' => m'.2 = m.2 ∧ m'.1.Takes m.1) plan log) :
    log.map Prod.snd = plan.map Prod.snd := by
  induction h with
  | nil => rfl
  | cons hm _ ih => rw [List.map_cons, List.map_cons, hm.1, ih]

variable {plan : List (Fork × Exchange)} {log : List (Visit × Exchange)}

/-- What a fork of a run has spent has been made by an earlier run or by this one. -/
theorem Logged.spent (h : Logged plan log) {above below : List (Visit × Exchange)}
    {m : Visit × Exchange} (hsplit : log = above ++ m :: below) {k : Nat} {e : Exchange}
    (hrequest : e.request = m.2.request) (hfits : m.1.fork.Fits units m.2)
    (hoffers : m.1.fork.Offers units k e) (hspent : m.1.Spent k) :
    Closed units plan (above.map Prod.snd) e ∨ Made [log.map Prod.snd] (above.map Prod.snd) e := by
  obtain ⟨new, hfresh, htaken⟩ := h
  rw [hsplit] at htaken
  obtain ⟨above₀, m₀, below₀, hsplit₀, habove, ⟨hm, htakes⟩, _⟩ := forall₂_split htaken.flip
  have habove' : above₀.map Prod.snd = above.map Prod.snd :=
    (map_snd_of_logged habove.flip).symm
  by_cases hk : k = m₀.1.taken
  · refine .inr ⟨_, List.mem_singleton.2 rfl, below.map Prod.snd, ?_⟩
    have hfits' : m.1.fork.Offers units k m.2 := by
      rw [hk, ← htakes.taken]
      exact hfits
    rw [hfits'.unique hoffers hrequest, hsplit]
    simp
  · have hspent₀ : m₀.1.Spent k := ((htakes.spent k).1 hspent).resolve_right hk
    rcases place_of_append hsplit₀ with hnew | ⟨rest, hplan⟩
    · exact absurd hspent₀ (hfresh m₀ hnew k)
    · exact .inl ⟨above₀, m₀, rest, k, hplan, habove', hrequest.trans (by rw [hm]),
        (htakes.offers units k e).1 hoffers, hspent₀, hk⟩

/-- What a fork of the path has to be taken, the log plans as well. -/
theorem Logged.promised (h : Logged plan log) {pre : List Exchange} {e : Exchange}
    (hpromised : Promised units plan pre e) :
    ∃ above m below k, log = above ++ m :: below ∧ above.map Prod.snd = pre ∧
      e.request = m.2.request ∧ m.1.fork.Offers units k e ∧ m.1.fork.Plans k := by
  obtain ⟨new, _, htaken⟩ := h
  obtain ⟨above, m, below, k, rfl, rfl, hrequest, hoffers, hplans⟩ := hpromised
  rw [List.append_assoc, List.cons_append] at htaken
  obtain ⟨above', m', below', hlog, habove, ⟨hm, htakes⟩, _⟩ := forall₂_split htaken
  exact ⟨above', m', below', k, hlog, map_snd_of_logged habove, hrequest.trans (by rw [hm]),
    (htakes.offers units k e).2 hoffers, htakes.plans k hplans⟩

/-- The path once the deepest choice that has something left to take is moved on. -/
structure Moved (log : List (Visit × Exchange)) (above : List (Visit × Exchange))
    (m : Visit × Exchange) (below : List (Visit × Exchange)) (f : Fork) (e : Exchange) : Prop where
  split : log = above ++ m :: below
  done : ∀ n ∈ below, n.1.fork.next? = none
  moves : m.1.Moves f
  request : e.request = m.2.request

/-- The path that is left by `Moved`. -/
def movedPlan (above : List (Visit × Exchange)) (f : Fork) (e : Exchange) :
    List (Fork × Exchange) :=
  above.map (fun n => (n.1.fork, n.2)) ++ [(f, e)]

theorem map_snd_above (above : List (Visit × Exchange)) :
    (above.map fun n => (n.1.fork, n.2)).map Prod.snd = above.map Prod.snd := by
  rw [List.map_map]
  rfl

theorem movedPlan_append (above : List (Visit × Exchange)) (n : Visit × Exchange)
    (zs : List (Visit × Exchange)) (f : Fork) (e : Exchange) :
    movedPlan (above ++ n :: zs) f e =
      above.map (fun n => (n.1.fork, n.2)) ++ (n.1.fork, n.2) :: movedPlan zs f e := by
  simp [movedPlan]

theorem spent_of_fork {v : Visit} {k : Nat} (h : v.fork.Spent k) : v.Spent k := by
  cases v with
  | step b ev => exact h
  | value count chosen => exact Nat.le_of_lt h

theorem fork_spent {v : Visit} {k : Nat} (h : v.Spent k) (hk : k ≠ v.fork.taken) :
    v.fork.Spent k := by
  cases v with
  | step b ev => exact h
  | value count chosen => exact Nat.lt_of_le_of_ne h hk

section Move

variable {above below : List (Visit × Exchange)} {m : Visit × Exchange} {f : Fork} {e₁ : Exchange}
  {pre : List Exchange} {e : Exchange}

/-- What is closed on the moved path was closed before or has been made by the run. -/
theorem closed_of_moved (h : Logged plan log) (hmoved : Moved log above m below f e₁)
    (hfits : ∀ n ∈ log, n.1.fork.Fits units n.2)
    (hclosed : Closed units (movedPlan above f e₁) pre e) :
    Closed units plan pre e ∨ Made [log.map Prod.snd] pre e := by
  obtain ⟨above₀, m₀, below₀, k, hplan, rfl, hrequest, hoffers, hspent, _⟩ := hclosed
  rcases split_concat hplan with ⟨rfl, rfl, _⟩ | ⟨_, _, hsplit⟩
  · rw [map_snd_above]
    exact h.spent hmoved.split (hrequest.trans hmoved.request)
      (hfits m (by rw [hmoved.split]; simp)) ((hmoved.moves.offers units k e).1 hoffers)
      ((hmoved.moves.spent k).1 hspent)
  · obtain ⟨above', log', rfl, rfl, hlog'⟩ := List.map_eq_append_iff.1 hsplit
    obtain ⟨n, below', rfl, rfl, rfl⟩ := List.map_eq_cons_iff.1 hlog'
    rw [map_snd_above]
    have hlog : log = above' ++ n :: (below' ++ m :: below) := by rw [hmoved.split]; simp
    exact h.spent hlog hrequest (hfits n (by rw [hlog]; simp)) hoffers (spent_of_fork hspent)

/-- What a run plans is promised by the moved path, or has been made. -/
theorem promised_or_made (h : Logged plan log) (hmoved : Moved log above m below f e₁)
    (hfits : ∀ n ∈ log, n.1.fork.Fits units n.2) {above' below' : List (Visit × Exchange)}
    {m' : Visit × Exchange} {k : Nat} (hsplit : log = above' ++ m' :: below')
    (hrequest : e.request = m'.2.request) (hoffers : m'.1.fork.Offers units k e)
    (hplans : m'.1.fork.Plans k) :
    Promised units (movedPlan above f e₁) (above'.map Prod.snd) e ∨
      Closed units plan (above'.map Prod.snd) e ∨
      Made [log.map Prod.snd] (above'.map Prod.snd) e := by
  rcases compare_places (hmoved.split.symm.trans hsplit) with
    ⟨zs, rfl⟩ | ⟨rfl, rfl, _⟩ | ⟨zs, hbelow, _⟩
  · exact .inl ⟨_, _, _, k, movedPlan_append above' m' zs f e₁, map_snd_above above', hrequest,
      hoffers, hplans⟩
  · exact .inl ⟨above.map fun n => (n.1.fork, n.2), (f, e₁), [], k, rfl, map_snd_above above,
      hrequest.trans hmoved.request.symm, (hmoved.moves.offers units k e).2 hoffers,
      (hmoved.moves.plans k).2 hplans⟩
  · have hfits' := hfits m' (by rw [hsplit]; simp)
    exact .inr (h.spent hsplit hrequest hfits' hoffers
      (Visit.spent_of_next?_eq_none hfits' (hmoved.done m' (by rw [hbelow]; simp)) hplans))

/-- The choice that was moved on is closed for the runs to come. -/
theorem closed_moved (hmoved : Moved log above m below f e₁) (hfits : m.1.fork.Fits units m.2)
    (hspent : m.1.Spent m.1.fork.taken) :
    Closed units (movedPlan above f e₁) (above.map Prod.snd) m.2 := by
  refine ⟨above.map fun n => (n.1.fork, n.2), (f, e₁), [], m.1.fork.taken, rfl,
    map_snd_above above, hmoved.request.symm, (hmoved.moves.offers units _ _).2 hfits,
    (hmoved.moves.spent _).2 hspent, fun heq => ?_⟩
  rw [heq] at hspent
  exact hmoved.moves.unspent hspent

/-- A barred walk stays barred. -/
theorem barred_of_barred (h : Logged plan log) (hmoved : Moved log above m below f e₁)
    (hfits : ∀ n ∈ log, n.1.fork.Fits units n.2)
    (hspent : ∀ n ∈ log, n.1.Spent n.1.fork.taken) {es : List Exchange}
    (hbarred : Barred units plan es) : Barred units (movedPlan above f e₁) es := by
  obtain ⟨pre, e, ⟨above₀, m₀, below₀, k, hplan, rfl, hrequest, hoffers, hspent₀, hk⟩, hes⟩ :=
    hbarred
  obtain ⟨new, _, htaken⟩ := h
  rw [hplan, List.append_assoc, List.cons_append] at htaken
  obtain ⟨above', m', below', hlog, habove, ⟨hm, htakes⟩, _⟩ := forall₂_split htaken
  have hpre : above'.map Prod.snd = above₀.map Prod.snd := map_snd_of_logged habove
  have hspent' : m'.1.Spent k := (htakes.spent k).2 (.inl hspent₀)
  have hoffers' : m'.1.fork.Offers units k e := (htakes.offers units k e).2 hoffers
  have hrequest' : e.request = m'.2.request := hrequest.trans (by rw [hm])
  rcases compare_places (hmoved.split.symm.trans hlog) with
    ⟨zs, rfl⟩ | ⟨rfl, rfl, _⟩ | ⟨zs, _, habove'⟩
  · have hk' : k ≠ m'.1.fork.taken := by rwa [htakes.taken]
    exact ⟨_, e, ⟨_, _, _, k, movedPlan_append above' m' zs f e₁, map_snd_above above', hrequest',
      hoffers', fork_spent hspent' hk', hk'⟩, by rw [hpre]; exact hes⟩
  · refine ⟨_, e, ⟨above.map fun n => (n.1.fork, n.2), (f, e₁), [], k, rfl, map_snd_above above,
      hrequest'.trans hmoved.request.symm, (hmoved.moves.offers units k e).2 hoffers',
      (hmoved.moves.spent k).2 hspent', fun heq => ?_⟩, by rw [hpre]; exact hes⟩
    rw [heq] at hspent'
    exact hmoved.moves.unspent hspent'
  · -- the place is below the choice that was moved on
    have hm' : m ∈ log := by rw [hmoved.split]; simp
    refine ⟨_, m.2, closed_moved hmoved (hfits m hm') (hspent m hm'), ?_⟩
    refine List.IsPrefix.trans ?_ hes
    rw [← hpre, habove']
    exact ⟨zs.map Prod.snd ++ [e], by simp⟩

/-- A barred walk gives another reply than the path at some place. -/
theorem part_of_barred (hnodup : units.Nodup) (hfits : ∀ n ∈ plan, n.1.Fits units n.2)
    {es es' : List Exchange} (hbarred : Barred units plan es)
    (hes' : plan.map Prod.snd <+: es') :
    ∃ pre e e', pre ++ [e] <+: es ∧ pre ++ [e'] <+: es' ∧ e ≠ e' := by
  obtain ⟨_, e, ⟨above, m, below, k, rfl, rfl, _, hoffers, _, hk⟩, hpre⟩ := hbarred
  refine ⟨_, e, m.2, hpre, ?_, ?_⟩
  · refine List.IsPrefix.trans ⟨below.map Prod.snd, ?_⟩ hes'
    simp
  · rintro rfl
    exact hk (hoffers.inj hnodup (hfits m (by simp)))

/-- A run along the path is not barred. -/
theorem not_barred (hnodup : units.Nodup) (hfits : ∀ n ∈ plan, n.1.Fits units n.2)
    {es : List Exchange} (hes : plan.map Prod.snd <+: es) : ¬ Barred units plan es := by
  intro hbarred
  obtain ⟨pre, e, e', hpre, hpre', hne⟩ := part_of_barred hnodup hfits hbarred hes
  have heq := (List.prefix_of_prefix_length_le hpre hpre' (by simp)).eq_of_length (by simp)
  exact hne (List.singleton_inj.1 (List.append_cancel_left heq))

theorem Closed.grow {units' : List UnitId} (h : Closed units plan pre e)
    (hgrow : units <+: units') (hnodup : units'.Nodup) : Closed units' plan pre e := by
  obtain ⟨above, m, below, k, hplan, hpre, hrequest, hoffers, hrest⟩ := h
  exact ⟨above, m, below, k, hplan, hpre, hrequest, hoffers.grow hgrow hnodup, hrest⟩

theorem Barred.grow {units' : List UnitId} {es : List Exchange} (h : Barred units plan es)
    (hgrow : units <+: units') (hnodup : units'.Nodup) : Barred units' plan es := by
  obtain ⟨pre, e, hclosed, hpre⟩ := h
  exact ⟨pre, e, hclosed.grow hgrow hnodup, hpre⟩

theorem Promised.grow {units' : List UnitId} (h : Promised units plan pre e)
    (hgrow : units <+: units') (hnodup : units'.Nodup) : Promised units' plan pre e := by
  obtain ⟨above, m, below, k, hplan, hpre, hrequest, hoffers, hrest⟩ := h
  exact ⟨above, m, below, k, hplan, hpre, hrequest, hoffers.grow hgrow hnodup, hrest⟩

theorem Closed.shrink {units' : List UnitId} (h : Closed units' plan pre e)
    (hfits : ∀ n ∈ plan, n.1.Fits units n.2) (hgrow : units <+: units')
    (hnodup : units'.Nodup) : Closed units plan pre e := by
  obtain ⟨above, m, below, k, hplan, hpre, hrequest, hoffers, hrest⟩ := h
  exact ⟨above, m, below, k, hplan, hpre, hrequest,
    hoffers.shrink (hfits m (by rw [hplan]; simp)) hrequest hgrow hnodup, hrest⟩

theorem Made.mono {walks walks' : List (List Exchange)} (h : Made walks pre e)
    (hsub : ∀ es ∈ walks, es ∈ walks') : Made walks' pre e := by
  obtain ⟨es, hes, hpre⟩ := h
  exact ⟨es, hsub es hes, hpre⟩

end Move

/-- The search before a run that is to follow a path of the tree. -/
structure Ready (bound : Nat) (all : List UnitId) (P : Program σ) (s : PartialOrder)
    (plan : List (Fork × Exchange)) : Prop where
  logs : s.Logs bound all [] plan
  zero : ∀ slot, s.lastClock slot = .zero
  leads : ∃ y, (P.root bound).Passes bound P (plan.map Prod.snd) y

theorem Ready.new : Ready bound all P (.new bound) [] :=
  ⟨logs_new, fun _ => rfl, _, .nil⟩

/-- A run made these exchanges. -/
def RunsAlong (bound : Nat) (P : Program σ) (r : Stop σ × Session PartialOrder)
    (es : List Exchange) : Prop :=
  (P.root bound).Passes bound P es (.inr (r.1, r.2.forget))

variable {s : PartialOrder}

theorem Logged.spent_taken (h : Logged plan log) {n : Visit × Exchange} (hn : n ∈ log) :
    n.1.Spent n.1.fork.taken := by
  obtain ⟨new, _, htaken⟩ := h
  obtain ⟨above, below, rfl⟩ := List.append_of_mem hn
  obtain ⟨_, n₀, _, _, _, ⟨_, htakes⟩, _⟩ := forall₂_split htaken.flip
  rw [htakes.taken]
  exact (htakes.spent _).2 (.inr rfl)

/-- A run follows the path, and plans what it demands at the forks that it takes. -/
theorem Ready.run (hall : all.length ≤ maxSlots)
    (hallowed : ∀ es y, (P.root bound).Passes bound P es y → AllWithin all es ∧ Brief es)
    (hfinite : ((P.root bound).walks bound P).Finite) (h : Ready bound all P s plan) :
    ∃ r log, (P.opening PartialOrder.strategy s).Concludes PartialOrder.strategy P r ∧
      r.2.strategy.Logs bound all log [] ∧ r.2.strategy.Heeds log ∧ Logged plan log ∧
      s.units <+: r.2.strategy.units ∧ plan.map Prod.snd <+: log.map Prod.snd ∧
      RunsAlong bound P r (log.map Prod.snd) := by
  have hkeeps : KeepsWith bound all (Racing s.units plan) s [] (plan.map Prod.snd) := by
    refine ⟨[], plan, h.logs, ⟨fun pre e hdemand => ?_, timed_of_zero h.zero,
      ⟨[], [], by simp, by simp, .nil⟩, List.prefix_refl _⟩, rfl, rfl⟩
    obtain ⟨_, _, hnil, _⟩ := hdemand.request
    simp at hnil
  obtain ⟨r, new, hr, ⟨log, plan', hlogs, hracing, hpassed, hahead⟩, hwalk⟩ :=
    (follows_racing hall s.units plan).run hallowed hfinite hkeeps h.leads
  obtain rfl : plan' = [] := by simpa using hahead
  refine ⟨r, log, hr, hlogs, hracing.heeds, logged_of_tracks hracing.tracks, hracing.grown, ?_, ?_⟩
  · rw [hpassed]
    exact List.prefix_append _ _
  · rw [hpassed]
    exact hwalk

theorem lastClock_prepare (slot : Nat) : s.prepare.2.lastClock slot = .zero := by
  simp only [PartialOrder.prepare, lastClock, List.getElem?_map]
  cases s.tracked[slot]? <;> rfl

/-- After a run all that it plans has been made, or the path is moved on. -/
theorem ready_prepare {r : Stop σ × Session PartialOrder}
    (hlogs : r.2.strategy.Logs bound all log [])
    (hwalked : ∃ y, (P.root bound).Passes bound P (log.map Prod.snd) y) :
    (r.2.strategy.prepare.1 = false ∧ ∀ m ∈ log, m.1.fork.next? = none) ∨
    (r.2.strategy.prepare.1 = true ∧ ∃ above m below f e, Moved log above m below f e ∧
      Ready bound all P r.2.strategy.prepare.2 (movedPlan above f e)) := by
  rcases hlogs.prepare with ⟨hfalse, hnone, _⟩ |
    ⟨htrue, above, m, below, f, w, hw, rfl, hbelow, hnext, hlogs'⟩
  · exact .inl ⟨hfalse, hnone⟩
  · have hfits := (hlogs.records m (by simp)).fits
    refine .inr ⟨htrue, above, m, below, f, ⟨m.2.request, w⟩,
      ⟨rfl, hbelow, Visit.moves_of_next? hfits hnext, rfl⟩, hlogs', lastClock_prepare, ?_⟩
    obtain ⟨z, hwalked⟩ := hwalked
    rw [List.map_append, List.map_cons] at hwalked
    obtain ⟨y, habove, hrest⟩ := hwalked.split
    rw [movedPlan, List.map_append, map_snd_above]
    cases y with
    | inr _ => cases hrest.of_inr.1
    | inl a =>
      obtain ⟨v, _, hm, _⟩ := hrest.of_inl
      obtain ⟨mv, me⟩ := m
      change me = _ at hm
      subst hm
      exact ⟨_, habove.append (.cons hw .nil)⟩

/-- A run bars the walk that it has made. -/
theorem barred_made {above below : List (Visit × Exchange)} {m : Visit × Exchange} {f : Fork}
    {e₁ : Exchange} (hlogged : Logged plan log) (hmoved : Moved log above m below f e₁)
    (hfits : ∀ n ∈ log, n.1.fork.Fits units n.2) :
    Barred units (movedPlan above f e₁) (log.map Prod.snd) := by
  have hm : m ∈ log := by rw [hmoved.split]; simp
  refine ⟨_, _, closed_moved hmoved (hfits m hm) (hlogged.spent_taken hm), ?_⟩
  rw [hmoved.split]
  exact ⟨below.map Prod.snd, by simp⟩

/-- The maximal walks that the runs to come may still make. -/
def free (bound : Nat) (P : Program σ) (units : List UnitId) (plan : List (Fork × Exchange)) :
    Set (List Exchange) :=
  {es | (∃ r, (P.root bound).Passes bound P es (.inr r)) ∧ ¬ Barred units plan es}

/-- Runs that meet what the path has promised and what they demand themselves, as far as earlier
runs have not. -/
structure Meets (units : List UnitId) (plan : List (Fork × Exchange))
    (walks : List (List Exchange)) : Prop where
  demands : ∀ es ∈ walks, ∀ pre e, Demands es pre e →
    Closed units plan pre e ∨ Made walks pre e
  promises : ∀ pre e, Promised units plan pre e → Closed units plan pre e ∨ Made walks pre e

/-- A run and the runs after it meet what is asked of them, if each exchange that the run plans has
been made or is promised to the runs after it, and these make what they are promised. -/
theorem meets_cons {units' : List UnitId} {walks : List (List Exchange)}
    (h : Logged plan log) (hgrow : units <+: units') (hnodup : units'.Nodup)
    (hfits : ∀ n ∈ plan, n.1.Fits units n.2)
    (hplanned : ∀ above m below k e, log = above ++ m :: below → e.request = m.2.request →
      m.1.fork.Offers units' k e → m.1.fork.Plans k →
      Closed units' plan (above.map Prod.snd) e ∨
        Made (log.map Prod.snd :: walks) (above.map Prod.snd) e)
    (hheeds : ∀ pre e, Demands (log.map Prod.snd) pre e →
      ∃ above m below k, log = above ++ m :: below ∧ above.map Prod.snd = pre ∧
        m.1.fork.Plans k ∧ m.1.fork.Offers units' k e)
    (hrest : ∀ es ∈ walks, ∀ pre e, Demands es pre e →
      Closed units' plan pre e ∨ Made (log.map Prod.snd :: walks) pre e) :
    Meets units plan (log.map Prod.snd :: walks) := by
  have hshrink : ∀ {pre e}, Closed units' plan pre e ∨ Made (log.map Prod.snd :: walks) pre e →
      Closed units plan pre e ∨ Made (log.map Prod.snd :: walks) pre e :=
    fun h => h.imp_left fun hclosed => hclosed.shrink hfits hgrow hnodup
  constructor
  · intro es hes pre e hdemand
    rcases List.mem_cons.1 hes with rfl | hes
    · obtain ⟨above, m, below, k, hsplit, rfl, hplans, hoffers⟩ := hheeds pre e hdemand
      obtain ⟨e₀, post, hes₀, hrequest⟩ := hdemand.request
      have hm : m.2 = e₀ := by
        rw [hsplit, List.map_append, List.map_cons, List.append_cancel_left_eq] at hes₀
        exact (List.cons.inj hes₀).1
      exact hshrink (hplanned above m below k e hsplit (by rw [hm]; exact hrequest) hoffers hplans)
    · exact hshrink (hrest es hes pre e hdemand)
  · intro pre e hpromised
    obtain ⟨above, m, below, k, hsplit, rfl, hrequest, hoffers, hplans⟩ :=
      h.promised (hpromised.grow hgrow hnodup)
    exact hshrink (hplanned above m below k e hsplit hrequest hoffers hplans)

/-- A run along the path is one of those that may still be made. -/
theorem mem_free {r : Stop σ × Session PartialOrder} (h : Ready bound all P s plan)
    (halong : plan.map Prod.snd <+: log.map Prod.snd)
    (hmade : RunsAlong bound P r (log.map Prod.snd)) :
    log.map Prod.snd ∈ free bound P s.units plan :=
  ⟨⟨_, hmade⟩, not_barred h.logs.knows.nodup h.logs.fits halong⟩

/-- A run bars the walk that it has made, and the walks that were barred before stay so. -/
theorem free_moved {units : List UnitId} {above below : List (Visit × Exchange)}
    {m : Visit × Exchange} {f : Fork} {e₁ : Exchange} (hlogged : Logged plan log)
    (hmoved : Moved log above m below f e₁) (hfits : ∀ n ∈ log, n.1.fork.Fits units n.2)
    (hgrow : s.units <+: units) (hnodup : units.Nodup) :
    (∀ es ∈ free bound P units (movedPlan above f e₁), es ∈ free bound P s.units plan) ∧
      log.map Prod.snd ∉ free bound P units (movedPlan above f e₁) := by
  refine ⟨fun es hes => ⟨hes.1, fun hbarred => hes.2 ?_⟩, fun hfree => hfree.2 ?_⟩
  · exact barred_of_barred hlogged hmoved hfits (fun n hn => hlogged.spent_taken hn)
      (hbarred.grow hgrow hnodup)
  · exact barred_made hlogged hmoved hfits

/-- By induction on the maximal walks that are not barred; each run bars the walk that it makes. -/
theorem explored_ready (hall : all.length ≤ maxSlots)
    (hallowed : ∀ es y, (P.root bound).Passes bound P es y → AllWithin all es ∧ Brief es)
    (hfinite : ((P.root bound).walks bound P).Finite) (h : Ready bound all P s plan) :
    ∃ fuel rs walks, Explored fuel PartialOrder.strategy P s rs ∧
      List.Forall₂ (RunsAlong bound P) rs walks ∧ Meets s.units plan walks := by
  have hfree : ∀ units plan, (free bound P units plan).Finite := fun _ _ =>
    hfinite.subset fun es hes => ⟨_, hes.1.choose_spec⟩
  obtain ⟨n, hn⟩ : ∃ n, (hfree s.units plan).toFinset.card ≤ n := ⟨_, Nat.le_refl _⟩
  induction n generalizing s plan with
  | zero =>
    obtain ⟨r, log, _, hlogs, _, hlogged, hgrow, halong, hmade⟩ := h.run hall hallowed hfinite
    have hpos := Finset.card_pos.2 ⟨_, (hfree _ _).mem_toFinset.2 (mem_free h halong hmade)⟩
    omega
  | succ n ih =>
    obtain ⟨r, log, hr, hlogs, hheeds, hlogged, hgrow, halong, hmade⟩ :=
      h.run hall hallowed hfinite
    obtain ⟨fuel, hdrive⟩ := drive_eq_some_iff.2 hr
    have hnodup := hlogs.knows.nodup
    have hfits : ∀ n ∈ log, n.1.fork.Fits r.2.strategy.units n.2 := fun n hn =>
      (hlogs.records n hn).fits
    rcases ready_prepare hlogs ⟨_, hmade⟩ with ⟨hfalse, hnone⟩ |
      ⟨htrue, above, m, below, f, e₁, hmoved, hready⟩
    · refine ⟨fuel, [r], [log.map Prod.snd], .last hdrive hfalse, .cons hmade .nil,
        meets_cons hlogged hgrow hnodup h.logs.fits ?_ hheeds fun es hes => by cases hes⟩
      intro above m below k e hsplit hrequest hoffers hplans
      have hfits' := hfits m (by rw [hsplit]; simp)
      exact hlogged.spent hsplit hrequest hfits' hoffers
        (Visit.spent_of_next?_eq_none hfits' (hnone m (by rw [hsplit]; simp)) hplans)
    · have hunits : r.2.strategy.prepare.2.units = r.2.strategy.units := units_prepare
      have hfewer : free bound P r.2.strategy.prepare.2.units (movedPlan above f e₁) ⊂
          free bound P s.units plan := by
        rw [hunits]
        obtain ⟨hsub, hbarred⟩ := free_moved hlogged hmoved hfits hgrow hnodup
        exact ⟨hsub, fun hsup => hbarred (hsup (mem_free h halong hmade))⟩
      have hcard : (hfree _ _).toFinset.card < (hfree s.units plan).toFinset.card :=
        Finset.card_lt_card (Set.Finite.toFinset_ssubset_toFinset.2 hfewer)
      obtain ⟨fuel', rs, walks, hrest, hmade', hmeets⟩ := ih hready (by omega)
      rw [hunits] at hmeets
      have hclosed : ∀ {pre e}, Closed r.2.strategy.units (movedPlan above f e₁) pre e ∨
          Made walks pre e → Closed r.2.strategy.units plan pre e ∨
            Made (log.map Prod.snd :: walks) pre e := by
        rintro pre e (hclosed | hmade)
        · exact (closed_of_moved hlogged hmoved hfits hclosed).imp_right fun h =>
            h.mono fun es hes => by rw [List.mem_singleton.1 hes]; exact List.mem_cons_self
        · exact .inr (hmade.mono fun es hes => List.mem_cons_of_mem _ hes)
      refine ⟨max fuel fuel', r :: rs, log.map Prod.snd :: walks,
        .more (drive_mono (Nat.le_max_left _ _) hdrive) htrue
          (hrest.mono (Nat.le_max_right _ _)),
        .cons hmade hmade', meets_cons hlogged hgrow hnodup h.logs.fits ?_ hheeds
          fun es hes pre e hdemand => hclosed (hmeets.demands es hes pre e hdemand)⟩
      intro above' m' below' k e hsplit hrequest hoffers hplans
      rcases promised_or_made hlogged hmoved hfits hsplit hrequest hoffers hplans with
        hpromised | hclosed' | hmade
      · exact hclosed (hmeets.promises _ e hpromised)
      · exact .inl hclosed'
      · exact .inr (hmade.mono fun es hes => by
          rw [List.mem_singleton.1 hes]; exact List.mem_cons_self)

/-- A fresh search stops after finitely many runs, and these make each exchange that one of them
demands. -/
theorem partialOrder_explores (hall : all.length ≤ maxSlots)
    (hallowed : ∀ es y, (P.root bound).Passes bound P es y → AllWithin all es ∧ Brief es)
    (hfinite : ((P.root bound).walks bound P).Finite) :
    ∃ enough rs walks, (∀ fuel, enough ≤ fuel →
        Explored fuel PartialOrder.strategy P (.new bound) rs) ∧
      List.Forall₂ (RunsAlong bound P) rs walks ∧ walks ≠ [] ∧
      ∀ es ∈ walks, ∀ pre e, Demands es pre e → Made walks pre e := by
  obtain ⟨fuel, rs, walks, hexplored, hmade, hmeets⟩ :=
    explored_ready hall hallowed hfinite (Ready.new (P := P))
  refine ⟨fuel, rs, walks, fun n hn => hexplored.mono hn, hmade, ?_, ?_⟩
  · rintro rfl
    cases hmade
    cases hexplored
  · intro es hes pre e hdemand
    refine (hmeets.demands es hes pre e hdemand).resolve_left ?_
    rintro ⟨above, m, below, _, hplan, _⟩
    simp at hplan

end PartialOrder
end Interleave
