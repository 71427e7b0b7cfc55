import Interleave.Proofs.PartialOrder.Exhaustive
import Interleave.Proofs.Schedule.Walks

/-!
# Interleave.Proofs.PartialOrder.Coverage

Why runs that meet each other's demands cover all schedules up to the order of independent steps.
The units tried at a scheduling point are such that a unit that was not tried cannot get in the way
of one that was: otherwise the two would race, and the race would have had it tried.

* `PartialOrder.Thorough`: runs of a program that meet each other's demands.
* `Thorough.race`: a step that depends on a tried one and comes first in some schedule is tried.
* `Thorough.covers`: by induction on the length of the walk so far, each complete schedule from a
  point on the way of a run is rearranged to one that a run makes.
-/

namespace Interleave

/-- The first element of a list with a property. -/
theorem exists_first {α : Type} (C : α → Prop) (xs : List α) :
    (∀ x ∈ xs, ¬ C x) ∨
      ∃ before x after, xs = before ++ x :: after ∧ C x ∧ ∀ y ∈ before, ¬ C y := by
  induction xs with
  | nil => exact .inl (by simp)
  | cons x xs ih =>
    by_cases hx : C x
    · exact .inr ⟨[], x, xs, rfl, hx, by simp⟩
    · rcases ih with hnone | ⟨before, y, after, rfl, hy, hbefore⟩
      · exact .inl fun y hy => (List.mem_cons.1 hy).elim (fun h => h ▸ hx) (hnone y)
      · exact .inr ⟨x :: before, y, after, rfl, hy, fun z hz =>
          (List.mem_cons.1 hz).elim (fun h => h ▸ hx) (hbefore z)⟩

namespace PartialOrder

variable {σ : Type} {P : Program σ} {walks : List (List Exchange)}

/-- Runs of a program, one at least, that meet each other's demands. -/
structure Thorough (P : Program σ) (walks : List (List Exchange)) : Prop where
  leaf : ∀ es ∈ walks, ∃ r, (P.root 0).Passes 0 P es (.inr r)
  demands : ∀ es ∈ walks, ∀ pre e, Demands es pre e → Made walks pre e

/-- Some run begins so. -/
def Reached (walks : List (List Exchange)) (pre : List Exchange) : Prop :=
  ∃ es ∈ walks, pre <+: es

theorem Thorough.exists_cons (h : Thorough P walks) {pre : List Exchange} {a : Pause σ Unit}
    (hpre : (P.root 0).Passes 0 P pre (.inl a)) (hreached : Reached walks pre) :
    ∃ v ∈ (a.place.request P).replies, ∃ fs, pre ++ ⟨a.place.request P, v⟩ :: fs ∈ walks := by
  obtain ⟨es, hes, fs, rfl⟩ := hreached
  obtain ⟨r, hr⟩ := h.leaf _ hes
  obtain ⟨v, hv, fs, rfl, _⟩ := (hr.rest hpre).exists_cons
  exact ⟨v, hv, fs, hes⟩

/-- All values of a choice are taken. -/
theorem Thorough.values (h : Thorough P walks) {x y : Juncture σ Unit} {es : List Exchange}
    (hpass : x.Passes 0 P es y) : ∀ {pre : List Exchange}, (P.root 0).Passes 0 P pre x →
      accesses es = [] → Reached walks pre → Reached walks (pre ++ es) := by
  induction hpass with
  | nil => intro pre _ _ hreached; rwa [List.append_nil]
  | @cons a v es y hv hpass ih =>
    intro pre hpre hvalues hreached
    have hnone : Exchange.access? ⟨a.place.request P, v⟩ = none ∧ accesses es = [] := by
      unfold accesses at hvalues ⊢
      rw [List.filterMap_cons] at hvalues
      split at hvalues
      · rename_i hnone
        exact ⟨hnone, hvalues⟩
      · cases hvalues
    obtain ⟨w, hw, fs, hmem⟩ := h.exists_cons hpre hreached
    have hmade : Made walks pre ⟨a.place.request P, v⟩ := h.demands _ hmem _ _
      (.value (e := ⟨a.place.request P, w⟩) (access?_eq_none hnone.1) hv)
    have hrest := ih (hpre.append (.cons hv .nil)) hnone.2 hmade
    rwa [List.append_assoc] at hrest

/-- A point on the way of some run at which a unit is to be scheduled or none is left. -/
structure Visited (P : Program σ) (walks : List (List Exchange)) (pre : List Exchange) (p : σ)
    (s : Session Unit) : Prop where
  sane : s.Sane
  leads : (P.root 0).Passes 0 P pre (P.between p s)
  reaches : P.Reaches p
  reached : Reached walks pre

/-- The unit is scheduled at this point by some run. -/
def Tried (P : Program σ) (walks : List (List Exchange)) (pre : List Exchange) (p : σ)
    (u : UnitId) : Prop :=
  Reached walks (pre ++ [P.exchange p u])

section Point

variable {pre : List Exchange} {p p' : σ} {s : Session Unit} {a : Step}

theorem Thorough.answers (h : Thorough P walks) (hv : Visited P walks pre p s)
    {y : Juncture σ Unit} (hpass : (P.between p s).Passes 0 P (P.exchanges p a) y)
    (hanswers : accesses a.answers = []) (htried : Tried P walks pre p a.unit) :
    Reached walks (pre ++ P.exchanges p a) := by
  have hsplit : P.exchanges p a = [P.exchange p a.unit] ++ a.answers := rfl
  rw [hsplit] at hpass ⊢
  obtain ⟨x, hfirst, hrest⟩ := hpass.split
  rw [← List.append_assoc]
  exact h.values hrest (hv.leads.append hfirst) hanswers htried

/-- A tried step leads to a further point. -/
theorem Visited.makes (h : Thorough P walks) (hv : Visited P walks pre p s)
    (hmakes : P.Makes p a p') (htried : Tried P walks pre p a.unit) :
    ∃ s', Visited P walks (pre ++ P.exchanges p a) p' s' := by
  obtain ⟨s', hs', hpass⟩ := makes_passes hv.sane hmakes
  exact ⟨s', hs', hv.leads.append hpass, hv.reaches.step hmakes,
    h.answers hv hpass hmakes.2.accesses htried⟩

/-- A tried step that fails is the end of some run. -/
theorem Visited.breaks (h : Thorough P walks) (hproper : P.Proper) (hv : Visited P walks pre p s)
    (hbreaks : P.Breaks p a) (htried : Tried P walks pre p a.unit) :
    ∃ es ∈ walks, ∃ r, (P.root 0).Passes 0 P es (.inr r) ∧ EndsUnsafe r := by
  obtain ⟨r, hr, hpass⟩ := breaks_passes hproper hv.reaches hv.sane hbreaks
  obtain ⟨es, hes, fs, rfl⟩ := h.answers hv hpass hbreaks.2.accesses htried
  obtain ⟨r', hr'⟩ := h.leaf _ hes
  obtain ⟨hnil, heq⟩ := (hr'.rest (hv.leads.append hpass)).of_inr
  cases heq
  exact ⟨_, hes, r, hr', hr⟩

/-- Some enabled unit is tried. -/
theorem Visited.exists_tried (h : Thorough P walks) (hv : Visited P walks pre p s)
    (hrest : enabledIds (P.units p) ≠ []) :
    ∃ u ∈ enabledIds (P.units p), Tried P walks pre p u := by
  have hleads := hv.leads
  rw [between_of_enabled hv.sane hrest] at hleads
  obtain ⟨u, hu, fs, hmem⟩ := h.exists_cons hleads hv.reached
  exact ⟨u, hu, _, hmem, fs, by rw [Program.exchange]; simp⟩

/-- A run along a step that finds a later one to depend on it, with nothing in between that the
first one reaches, has the unit of the later step tried, or all units if that one is not enabled. -/
theorem tried_of_race (h : Thorough P walks) {b : Access} {es : List Exchange}
    (hoffers : P.Offers p a.toAccess) (hanswers : accesses a.answers = [])
    (hmem : pre ++ P.exchanges p a ++ es ∈ walks)
    (hreached : Uninfluenced {a.toAccess} b (accesses es))
    (hdepends : ¬ a.toAccess.Independent b) {w : UnitId} (hw : w ∈ enabledIds (P.units p))
    (hunit : b.unit ∈ enabledIds (P.units p) → w = b.unit) : Tried P walks pre p w := by
  obtain ⟨before, after, hsplit, hbefore⟩ := hreached
  obtain ⟨es₁, rest, rfl, rfl, hrest⟩ := List.filterMap_eq_append_iff.1 hsplit
  obtain ⟨es₂, f, post, rfl, hvalues, hf, -⟩ := List.filterMap_eq_cons_iff.1 hrest
  have haccess : Access.mk a.unit (targetOf (P.units p) a.unit) = a.toAccess := by
    obtain ⟨⟨u, t⟩, answers⟩ := a
    show Access.mk u _ = ⟨u, t⟩
    rw [show t = _ from hoffers.2]
  have hmid : accesses (a.answers ++ (es₁ ++ es₂)) = accesses es₁ := by
    have hnone : accesses es₂ = [] := List.filterMap_eq_nil_iff.2 hvalues
    rw [accesses_append, accesses_append, hanswers, hnone]
    simp
  have hwalk : pre ++ P.exchanges p a ++ (es₁ ++ (es₂ ++ f :: post)) =
      pre ++ ⟨.unit (P.units p) (P.current p), a.unit⟩ ::
        ((a.answers ++ (es₁ ++ es₂)) ++ f :: post) := by
    simp [Program.exchanges, Program.exchange]
  rw [hwalk] at hmem
  refine h.demands _ hmem pre ⟨.unit (P.units p) (P.current p), w⟩ (.race hf ?_ ?_ hw hunit)
  · rwa [haccess]
  · rw [haccess, hmid]
    exact hbefore

end Point
/-- Some run ends with a failed assertion. -/
def Found (P : Program σ) (walks : List (List Exchange)) : Prop :=
  ∃ es ∈ walks, ∃ r, (P.root 0).Passes 0 P es (.inr r) ∧ EndsUnsafe r

/-- Steps of different units that declare different targets. -/
abbrev StepsIndependent (a b : Step) : Prop := a.toAccess.Independent b.toAccess

/-- Unless a failed assertion is found, each complete schedule from a point is rearranged to one
that some run makes. -/
def Covers (P : Program σ) (walks : List (List Exchange)) (pre : List Exchange) (p : σ) : Prop :=
  ∀ as q last, P.Path p as q → P.Stops q last →
    Found P walks ∨ last = none ∧ ∃ bs es q', Rearranged StepsIndependent as bs ∧
      P.Walk p bs es q' ∧ enabledIds (P.units q') = [] ∧ pre ++ es ∈ walks

section Covers

variable {pre : List Exchange} {p p' q : σ} {s : Session Unit} {a : Step} {as : List Step}

/-- A step that depends on a tried one comes first in no schedule that is independent of that one up
to there, unless it is tried as well. -/
theorem Thorough.race (h : Thorough P walks) (hproper : P.Proper) (hc : P.Commutes)
    (hpersistent : P.Persistent) (hfinite : ((P.root 0).walks 0 P).Finite)
    (hv : Visited P walks pre p s) (hmakes : P.Makes p a p') (htried : Tried P walks pre p a.unit)
    (hcovers : Covers P walks (pre ++ P.exchanges p a) p') (hpath : P.Path p as q)
    (hindep : ∀ x ∈ as, StepsIndependent a x) {d : Access} (hd : P.Offers q d)
    (hunit : d.unit ≠ a.unit) (hdepends : ¬ a.toAccess.Independent d)
    (hnot : ¬ Tried P walks pre p d.unit)
    (hother : ∃ u ∈ enabledIds (P.units p), ¬ Tried P walks pre p u) : Found P walks := by
  obtain ⟨q', hpath', hlast⟩ := path_past hc hpath hv.reaches hmakes hindep
  have hq := hv.reaches.path hpath
  have hd' : P.Offers q' d := hpersistent hq hlast hd hunit
  obtain ⟨b, rfl, hb⟩ := exists_step hproper (hq.step hlast) hd'
  obtain ⟨s', hv'⟩ := hv.makes h hmakes htried
  rcases hb with ⟨q₁, hb⟩ | hb
  · -- the step is made, and the schedule goes on after it
    have hpath₁ : P.Path p' (as ++ [b]) q₁ := hpath'.append (.cons hb (.nil q₁))
    obtain ⟨es₁, hwalk₁⟩ := hpath₁.walk
    obtain ⟨s₁, hs₁, hpass₁⟩ := walk_passes hwalk₁ s' hv'.sane
    obtain ⟨bs, q₂, last, hrest, hstops⟩ := exists_complete hproper hfinite hs₁
      (hv'.leads.append hpass₁) (hv'.reaches.path hpath₁)
    rcases hcovers _ q₂ last (hpath₁.append hrest) hstops with
      hfound | ⟨_, cs, es, q₃, hrearranged, hwalk, _, hmem⟩
    · exact hfound
    · have hmapped : Rearranged Access.Independent ((as ++ [b] ++ bs).map Step.toAccess)
          (cs.map Step.toAccess) :=
        hrearranged.map (f := Step.toAccess) fun _ _ h => h
      have hseen : Uninfluenced {a.toAccess} b.toAccess (cs.map Step.toAccess) := by
        refine hmapped.uninfluenced ⟨as.map Step.toAccess,
          bs.map Step.toAccess, by simp, fun x hx => ?_⟩
        rw [influence_eq_self] at hx
        · rw [hx]
          exact hunit.symm
        · intro y hy
          obtain ⟨z, hz, rfl⟩ := List.mem_map.1 hy
          exact hindep z hz
      rw [← hwalk.accesses] at hseen
      have hrace : ∀ u ∈ enabledIds (P.units p),
          (b.unit ∈ enabledIds (P.units p) → u = b.unit) → Tried P walks pre p u :=
        fun u hu hunit => tried_of_race h hmakes.1 hmakes.2.accesses hmem hseen hdepends hu hunit
      obtain ⟨u, hu, hnot'⟩ := hother
      by_cases henabled : b.unit ∈ enabledIds (P.units p)
      · exact absurd (hrace b.unit henabled fun _ => rfl) hnot
      · exact absurd (hrace u hu fun h => absurd h henabled) hnot'
  · rcases hcovers _ q' (some b) hpath' hb with hfound | ⟨hnone, _⟩
    · exact hfound
    · cases hnone

/-- A tried unit makes a step, unless a failed assertion is found. -/
theorem Visited.exists_step (h : Thorough P walks) (hproper : P.Proper)
    (hv : Visited P walks pre p s) {x : Access} (hx : P.Offers p x)
    (htried : Tried P walks pre p x.unit) :
    Found P walks ∨ ∃ a p', a.toAccess = x ∧ P.Makes p a p' := by
  obtain ⟨a, rfl, ⟨p', hmakes⟩ | hbreaks⟩ := Interleave.exists_step hproper hv.reaches hx
  · exact .inr ⟨a, p', rfl, hmakes⟩
  · exact .inl (hv.breaks h hproper hbreaks htried)

theorem Visited.enabled_of_tried (h : Thorough P walks) (hv : Visited P walks pre p s) {u : UnitId}
    (htried : Tried P walks pre p u) : u ∈ enabledIds (P.units p) := by
  obtain ⟨es, hes, fs, rfl⟩ := htried
  obtain ⟨r, hr⟩ := h.leaf _ hes
  rw [List.append_assoc] at hr
  have hrest := hr.rest hv.leads
  by_cases hnone : enabledIds (P.units p) = []
  · rw [between_of_rest hv.sane hnone] at hrest
    cases hrest.of_inr.1
  · rw [between_of_enabled hv.sane hnone] at hrest
    obtain ⟨v, hv, heq, _⟩ := hrest.of_inl
    injection heq with _ heq
    rw [heq]
    exact hv

/-- A schedule without a tried unit begins with an enabled unit that was not tried. -/
theorem exists_untried (hpath : P.Path p as q) (hnot : ∀ x ∈ as, ¬ Tried P walks pre p x.unit)
    {d : Access} (hd : P.Offers q d) (hnotd : ¬ Tried P walks pre p d.unit) :
    ∃ u ∈ enabledIds (P.units p), ¬ Tried P walks pre p u := by
  cases hpath with
  | nil => exact ⟨d.unit, hd.1, hnotd⟩
  | @cons _ _ _ y _ hy _ => exact ⟨y.unit, hy.1.1, hnot y List.mem_cons_self⟩

/-- Before its first tried unit, a schedule is independent of the steps of tried units: a step that
depends on one would race with it. -/
theorem Thorough.independent (h : Thorough P walks) (hproper : P.Proper) (hc : P.Commutes)
    (hpersistent : P.Persistent) (hfinite : ((P.root 0).walks 0 P).Finite)
    (hv : Visited P walks pre p s)
    (hcovers : ∀ {a p'}, P.Makes p a p' → Tried P walks pre p a.unit →
      Covers P walks (pre ++ P.exchanges p a) p')
    (hpath : P.Path p as q) (hnot : ∀ x ∈ as, ¬ Tried P walks pre p x.unit)
    {x : Access} (hx : P.Offers p x) (htried : Tried P walks pre p x.unit) :
    Found P walks ∨ ∀ y ∈ as, y.toAccess.Independent x := by
  refine or_iff_not_imp_left.2 fun hfound => ?_
  obtain ⟨a, p', rfl, hmakes⟩ := (hv.exists_step h hproper hx htried).resolve_left hfound
  rcases exists_first (fun y : Step => ¬ StepsIndependent y a) as with hall |
    ⟨before, d, after, rfl, hdepends, hbefore⟩
  · exact fun y hy => not_not.1 (hall y hy)
  · obtain ⟨q₁, hpath₁, hrest⟩ := hpath.split
    cases hrest with
    | cons hd _ =>
      have hnotd := hnot d (by simp)
      refine absurd (h.race hproper hc hpersistent hfinite hv hmakes htried (hcovers hmakes htried)
        hpath₁ (fun y hy => (not_not.1 (hbefore y hy)).symm) hd.1 (fun heq => hnotd ?_)
        (fun hindep => hdepends hindep.symm) hnotd
        (exists_untried hpath₁ (fun y hy => hnot y (by simp [hy])) hd.1 hnotd)) hfound
      rw [show d.unit = a.unit from heq]
      exact htried

/-- A unit that is enabled and does not step stays as it was offered. -/
theorem offers_later (hpersistent : P.Persistent) (hp : P.Reaches p) (hpath : P.Path p as q)
    {x : Access} (hx : P.Offers q x) (henabled : x.unit ∈ enabledIds (P.units p))
    (hunit : ∀ y ∈ as, x.unit ≠ y.unit) : P.Offers p x := by
  have hoffers := offers_of_enabled henabled
  have hlater := offers_path hpersistent hpath hp hoffers hunit
  rw [offers_unique hx hlater rfl]
  exact hoffers

/-- A schedule that no tried unit is part of comes to a failed assertion. -/
theorem Thorough.found (h : Thorough P walks) (hproper : P.Proper) (hc : P.Commutes)
    (hpersistent : P.Persistent) (hfinite : ((P.root 0).walks 0 P).Finite)
    (hv : Visited P walks pre p s) (hrest : enabledIds (P.units p) ≠ [])
    (hcovers : ∀ {a p'}, P.Makes p a p' → Tried P walks pre p a.unit →
      Covers P walks (pre ++ P.exchanges p a) p')
    (hpath : P.Path p as q) (hnot : ∀ x ∈ as, ¬ Tried P walks pre p x.unit) {last : Option Step}
    (hstops : P.Stops q last) : Found P walks := by
  by_contra hfound
  have hindep := fun {x} hx htried => (h.independent hproper hc hpersistent hfinite hv hcovers hpath
    hnot (x := x) hx htried).resolve_left hfound
  have hunits : ∀ {u}, Tried P walks pre p u → ∀ y ∈ as, u ≠ y.unit := fun hu y hy heq =>
    hnot y hy (heq ▸ hu)
  obtain ⟨u, hu, htried⟩ := hv.exists_tried h hrest
  have hx : P.Offers p ⟨u, _⟩ := offers_of_enabled hu
  cases last with
  | none =>
    -- the tried unit would still be enabled
    have hlater := offers_path hpersistent hpath hv.reaches hx (hunits htried)
    exact List.ne_nil_of_mem hlater.1 hstops
  | some f =>
    by_cases hf : Tried P walks pre p f.unit
    · have hfirst := offers_later hpersistent hv.reaches hpath hstops.1 (hv.enabled_of_tried h hf)
        (hunits hf)
      exact hfound (hv.breaks h hproper
        (breaks_front hc hpath hv.reaches hstops (hindep hfirst hf)) hf)
    · obtain ⟨a, p', haccess, hmakes⟩ := (hv.exists_step h hproper hx htried).resolve_left hfound
      have htried' : Tried P walks pre p a.unit := by
        rw [show a.unit = u from congrArg Access.unit haccess]
        exact htried
      have hpast : ∀ y ∈ as, StepsIndependent a y := fun y hy => by
        show a.toAccess.Independent y.toAccess
        rw [haccess]
        exact (hindep hx htried y hy).symm
      by_cases hdepends : a.toAccess.Independent f.toAccess
      · obtain ⟨q', hpath', hlast⟩ := path_past hc hpath hv.reaches hmakes hpast
        have hbreaks := (hc.breaks (hv.reaches.path hpath) hlast hdepends).1 hstops
        rcases hcovers hmakes htried' as q' (some f) hpath' hbreaks with h | ⟨hnone, _⟩
        · exact hfound h
        · cases hnone
      · refine hfound (h.race hproper hc hpersistent hfinite hv hmakes htried'
          (hcovers hmakes htried') hpath hpast hstops.1 (fun heq => hf ?_) hdepends hf
          (exists_untried hpath hnot hstops.1 hf))
        rw [show f.unit = a.unit from heq]
        exact htried'

/-- Each complete schedule from a point on the way of a run is rearranged to one that a run makes,
unless a failed assertion is found. By induction on the steps that the tree leaves. -/
theorem Thorough.covers (h : Thorough P walks) (hproper : P.Proper) (hc : P.Commutes)
    (hpersistent : P.Persistent) (hfinite : ((P.root 0).walks 0 P).Finite)
    (hv : Visited P walks pre p s) : Covers P walks pre p := by
  obtain ⟨longest, hlongest⟩ := exists_longest hfinite
  obtain ⟨left, hleft⟩ : ∃ left, longest < left + pre.length := ⟨longest + 1, by omega⟩
  induction left generalizing pre p s with
  | zero =>
    have hle := hlongest _ _ hv.leads
    omega
  | succ left ih =>
    intro as q last hpath hstops
    by_cases hrest : enabledIds (P.units p) = []
    · cases hpath with
      | cons hmakes _ => exact absurd hrest (List.ne_nil_of_mem hmakes.1.1)
      | nil =>
        cases last with
        | some f => exact absurd hrest (List.ne_nil_of_mem hstops.1.1)
        | none =>
          obtain ⟨es, hes, fs, rfl⟩ := hv.reached
          obtain ⟨r, hr⟩ := h.leaf _ hes
          have hend := hr.rest hv.leads
          rw [between_of_rest hv.sane hrest] at hend
          obtain ⟨rfl, _⟩ := hend.of_inr
          exact .inr ⟨rfl, [], [], p, .refl _, .nil p, hrest, hes⟩
    · have hcovers : ∀ {a p'}, P.Makes p a p' → Tried P walks pre p a.unit →
          Covers P walks (pre ++ P.exchanges p a) p' := by
        intro a p' hmakes htried
        obtain ⟨s', hv'⟩ := hv.makes h hmakes htried
        exact ih hv' (by rw [List.length_append, Program.exchanges, List.length_cons]; omega)
      rcases exists_first (fun x : Step => Tried P walks pre p x.unit) as with hnone |
        ⟨before, b, after, rfl, hb, hbefore⟩
      · exact .inl (h.found hproper hc hpersistent hfinite hv hrest hcovers hpath hnone hstops)
      · -- the first tried unit is moved to the front
        refine or_iff_not_imp_left.2 fun hfound => ?_
        obtain ⟨q₁, hpath₁, hpath₂⟩ := hpath.split
        cases hpath₂ with
        | cons hmakes hpath₂ =>
          have hx := offers_later hpersistent hv.reaches hpath₁ hmakes.1
            (hv.enabled_of_tried h hb) fun y hy heq => hbefore y hy (heq ▸ hb)
          have hindep := (h.independent hproper hc hpersistent hfinite hv hcovers hpath₁ hbefore hx
            hb).resolve_left hfound
          obtain ⟨p', hmakes', hpath'⟩ := path_to_front hc hpath₁ hv.reaches hmakes hindep
          obtain ⟨hlast, bs, es, q', hrearranged, hwalk, hend, hmem⟩ :=
            (hcovers hmakes' hb _ q last (hpath'.append hpath₂) hstops).resolve_left hfound
          refine ⟨hlast, b :: bs, _, q', ?_, .cons hmakes' hwalk, hend, ?_⟩
          · exact (Rearranged.to_front after hindep).trans (.cons b hrearranged)
          · rwa [← List.append_assoc]

end Covers
end PartialOrder
end Interleave
