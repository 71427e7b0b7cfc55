import Interleave.Proofs.PartialOrder.Independence
import Interleave.Proofs.PartialOrder.Slots

/-!
# Interleave.Proofs.PartialOrder.Forks

What the forks on the path of partial-order search stand for. A fork offers alternatives, known by
numbers: slots at a scheduling point, the values at a choice of a value.

* `Fork.Offers`: the exchange that an alternative makes.
* `Fork.Plans`, `Fork.Spent`: the alternatives to be taken, and those taken by earlier runs.
* `Visit.Takes`, `Visit.Moves`: what becomes of them when a run takes the fork and when it is moved
  on to its next alternative.
-/

namespace Interleave

/-- An alternative of a fork makes this exchange. -/
inductive Fork.Offers (units : List UnitId) : Fork → Nat → Exchange → Prop where
  | unit {b : Branch} {k : Nat} {candidates : List Candidate} {current : Option Candidate}
      {u : UnitId} : SlotSet.StandsFor units (enabledIds candidates) b.enabled →
      u ∈ enabledIds candidates → units[k]? = some u →
      Offers units (.branch b) k ⟨.unit candidates current, u⟩
  | boolean {k : Nat} {count chosen max : UInt64} : count = 2 → k < count.toNat →
      Offers units (.value count chosen) k ⟨.boolean max, k == 1⟩
  | integer {k : Nat} {count chosen max : UInt64} : count = alternativesOf max →
      k < count.toNat → Offers units (.value count chosen) k ⟨.integer max, UInt64.ofNat k⟩

namespace Fork

/-- The alternative that is taken. -/
def taken : Fork → Nat
  | branch b => b.chosen
  | value _ chosen => chosen.toNat

/-- The alternative is to be taken in some run. -/
def Plans : Fork → Nat → Prop
  | branch b, k => b.toTry.contains k = true
  | value count _, k => k < count.toNat

/-- The alternative has been taken in an earlier run. -/
def Spent : Fork → Nat → Prop
  | branch b, k => b.tried.contains k = true
  | value _ chosen, k => k < chosen.toNat

/-- What is taken at a fork makes this exchange. -/
abbrev Fits (units : List UnitId) (f : Fork) (e : Exchange) : Prop := f.Offers units f.taken e

theorem Offers.grow {units units' : List UnitId} {f : Fork} {k : Nat} {e : Exchange}
    (h : f.Offers units k e) (hgrow : units <+: units') (hnodup : units'.Nodup) :
    f.Offers units' k e := by
  cases h with
  | unit hset hu hk =>
    refine .unit (hset.grow hgrow hnodup) hu ?_
    obtain ⟨new, rfl⟩ := hgrow
    rw [List.getElem?_append_left (List.getElem?_eq_some_iff.1 hk).1]
    exact hk
  | boolean hcount hk => exact .boolean hcount hk
  | integer hcount hk => exact .integer hcount hk

theorem Offers.mem_replies {units : List UnitId} {f : Fork} {k : Nat} {e : Exchange}
    (h : f.Offers units k e) : e.reply ∈ e.request.replies := by
  cases h with
  | unit _ hu _ => exact hu
  | boolean hcount hk =>
    subst hcount
    match k, hk with
    | 0, _ => exact List.mem_cons_self
    | 1, _ => exact List.mem_cons_of_mem _ List.mem_cons_self
  | integer hcount hk =>
    subst hcount
    exact List.mem_map.2 ⟨k, List.mem_range.2 hk, rfl⟩

/-- Each reply to the request of a fork is one of its alternatives. -/
theorem Offers.exists_offers {units : List UnitId} {f : Fork} {k : Nat} {e : Exchange}
    (h : f.Offers units k e) {v : e.request.Reply} (hv : v ∈ e.request.replies) :
    ∃ j, f.Offers units j ⟨e.request, v⟩ := by
  cases h with
  | unit hset _ _ =>
    obtain ⟨j, hj⟩ := List.getElem?_of_mem (hset.known v hv)
    exact ⟨j, .unit hset hv hj⟩
  | boolean hcount _ =>
    subst hcount
    cases v with
    | false => exact ⟨0, .boolean rfl (by decide)⟩
    | true => exact ⟨1, .boolean rfl (by decide)⟩
  | integer hcount _ =>
    subst hcount
    obtain ⟨j, hj, rfl⟩ := List.mem_map.1 hv
    exact ⟨j, .integer rfl (List.mem_range.1 hj)⟩

/-- Different alternatives make different exchanges. -/
theorem Offers.inj {units : List UnitId} (hnodup : units.Nodup) {f : Fork} {j k : Nat}
    {e : Exchange} (hj : f.Offers units j e) (hk : f.Offers units k e) : j = k := by
  cases hj with
  | unit _ _ hj =>
    cases hk with
    | unit _ _ hk =>
      exact (List.getElem?_inj (List.getElem?_eq_some_iff.1 hj).1 hnodup).1 (hj.trans hk.symm)
  | @boolean _ count _ max hcount hj =>
    generalize he : (⟨.boolean max, j == 1⟩ : Exchange) = e' at hk
    cases hk with
    | boolean _ hk =>
      injection he with _ hval
      rw [Bool.eq_iff_iff, beq_iff_eq, beq_iff_eq] at hval
      rw [hcount] at hj hk
      have htwo : (2 : UInt64).toNat = 2 := rfl
      omega
    | integer _ _ => cases he
  | @integer _ count _ max hcount hj =>
    generalize he : (⟨.integer max, UInt64.ofNat j⟩ : Exchange) = e' at hk
    cases hk with
    | boolean _ _ => cases he
    | integer _ hk =>
      injection he with _ he
      have hlt := count.toNat_lt
      have hval := congrArg UInt64.toNat he
      rwa [UInt64.toNat_ofNat_of_lt' (by simp only [UInt64.size]; omega),
        UInt64.toNat_ofNat_of_lt' (by simp only [UInt64.size]; omega)] at hval

/-- No run has taken an alternative. -/
def Fresh (f : Fork) : Prop := ∀ k, ¬ f.Spent k

end Fork

namespace Visit

/-- The alternative has been taken in an earlier run or in this one. -/
def Spent : Visit → Nat → Prop
  | step b _, k => b.tried.contains k = true
  | value _ chosen, k => k ≤ chosen.toNat

/-- A choice was made at this fork, which may have got more to try since. -/
structure Takes (f : Fork) (v : Visit) : Prop where
  offers : ∀ units k e, v.fork.Offers units k e ↔ f.Offers units k e
  taken : v.fork.taken = f.taken
  plans : ∀ k, f.Plans k → v.fork.Plans k
  spent : ∀ k, v.Spent k ↔ f.Spent k ∨ k = f.taken

/-- Widen the scheduling point if its step races with the given one. -/
def mark (slot : Nat) (target : Option UnitId) (pre : Clock) : Visit → Visit
  | step b e => step (if e.racesWith slot target pre then b.widen slot else b) e
  | value count chosen => value count chosen

theorem widen_enabled (slot : Nat) (b : Branch) : (b.widen slot).enabled = b.enabled := by
  unfold Branch.widen
  split <;> rfl

theorem widen_chosen (slot : Nat) (b : Branch) : (b.widen slot).chosen = b.chosen := by
  unfold Branch.widen
  split <;> rfl

theorem widen_tried (slot : Nat) (b : Branch) : (b.widen slot).tried = b.tried := by
  unfold Branch.widen
  split <;> rfl

theorem contains_toTry_widen {slot k : Nat} {b : Branch} (h : b.toTry.contains k = true) :
    (b.widen slot).toTry.contains k = true := by
  unfold Branch.widen
  split
  · exact SlotSet.contains_insert.2 (.inl h)
  · exact SlotSet.contains_union.2 (.inl h)

theorem offers_of_enabled {b b' : Branch} (h : b'.enabled = b.enabled) (units : List UnitId)
    (k : Nat) (e : Exchange) :
    (Fork.branch b').Offers units k e ↔ (Fork.branch b).Offers units k e := by
  constructor
  · rintro ⟨hset, hu, hk⟩
    exact .unit (h ▸ hset) hu hk
  · rintro ⟨hset, hu, hk⟩
    exact .unit (h ▸ hset) hu hk

theorem Takes.mark {f : Fork} {v : Visit} (h : v.Takes f) (slot : Nat)
    (target : Option UnitId) (pre : Clock) : (v.mark slot target pre).Takes f := by
  cases v with
  | value count chosen => exact h
  | step b e =>
    obtain ⟨hoffers, htaken, hplans, hspent⟩ := h
    simp only [Visit.mark]
    split
    · exact ⟨fun units k x => (offers_of_enabled (widen_enabled slot b) units k x).trans
          (hoffers units k x),
        (widen_chosen slot b).trans htaken, fun k hk => contains_toTry_widen (hplans k hk),
        fun k => by
          rw [← hspent]
          simp only [Visit.Spent, widen_tried]⟩
    · exact ⟨hoffers, htaken, hplans, hspent⟩

theorem offers_mark (v : Visit) (slot : Nat) (target : Option UnitId) (pre : Clock)
    (units : List UnitId) (k : Nat) (e : Exchange) :
    (v.mark slot target pre).fork.Offers units k e ↔ v.fork.Offers units k e := by
  cases v with
  | value count chosen => rfl
  | step b ev =>
    simp only [mark]
    split
    · exact offers_of_enabled (widen_enabled slot b) units k e
    · rfl

/-- A choice made this exchange; at a scheduling point its event tells the step. -/
inductive Records (units : List UnitId) : Visit → Exchange → Prop where
  | step {b : Branch} {ev : Event} {e : Exchange} {a : Access} :
      (Fork.branch b).Fits units e → e.access? = some a → ev.slot = b.chosen →
      ev.target = a.target → Records units (.step b ev) e
  | value {count chosen : UInt64} {e : Exchange} : (Fork.value count chosen).Fits units e →
      Records units (.value count chosen) e

/-- What a choice tells of the step that an exchange made, if it made one. -/
inductive Tells (units : List UnitId) : Visit → Exchange → Prop where
  | step {b : Branch} {ev : Event} {e : Exchange} {a : Access} :
      (Fork.branch b).Fits units e → e.access? = some a → ev.slot = b.chosen →
      ev.target = a.target → Tells units (.step b ev) e
  | value {count chosen : UInt64} {e : Exchange} : e.access? = none →
      Tells units (.value count chosen) e

theorem access?_of_fits {units : List UnitId} {count chosen : UInt64} {e : Exchange}
    (h : (Fork.value count chosen).Fits units e) : e.access? = none := by
  change (Fork.value count chosen).Offers units chosen.toNat e at h
  generalize chosen.toNat = k at h
  cases h with
  | boolean _ _ => rfl
  | integer _ _ => rfl

theorem Records.tells {units : List UnitId} {v : Visit} {e : Exchange} (h : v.Records units e) :
    v.Tells units e := by
  cases h with
  | step h ha hslot htarget => exact .step h ha hslot htarget
  | value h => exact .value (access?_of_fits h)

theorem Records.fits {units : List UnitId} {v : Visit} {e : Exchange} (h : v.Records units e) :
    v.fork.Fits units e := by
  cases h with
  | step h _ _ _ => exact h
  | value h => exact h

theorem Records.grow {units units' : List UnitId} {v : Visit} {e : Exchange}
    (h : v.Records units e) (hgrow : units <+: units') (hnodup : units'.Nodup) :
    v.Records units' e := by
  cases h with
  | step h ha hslot htarget => exact .step (h.grow hgrow hnodup) ha hslot htarget
  | value h => exact .value (h.grow hgrow hnodup)

theorem Tells.grow {units units' : List UnitId} {v : Visit} {e : Exchange} (h : v.Tells units e)
    (hgrow : units <+: units') (hnodup : units'.Nodup) : v.Tells units' e := by
  cases h with
  | step h ha hslot htarget => exact .step (h.grow hgrow hnodup) ha hslot htarget
  | value h => exact .value h

theorem fits_widen {units : List UnitId} {b : Branch} {e : Exchange}
    (h : (Fork.branch b).Fits units e) (slot : Nat) :
    (Fork.branch (b.widen slot)).Fits units e := by
  show (Fork.branch (b.widen slot)).Offers units (b.widen slot).chosen e
  rw [widen_chosen]
  exact (offers_of_enabled (widen_enabled slot b) units _ e).2 h

theorem Tells.mark {units : List UnitId} {v : Visit} {e : Exchange} (h : v.Tells units e)
    (slot : Nat) (target : Option UnitId) (pre : Clock) :
    (v.mark slot target pre).Tells units e := by
  cases h with
  | step h ha hslot htarget =>
    simp only [Visit.mark]
    split
    · exact .step (fits_widen h slot) ha (hslot.trans (widen_chosen slot _).symm) htarget
    · exact .step h ha hslot htarget
  | value h => exact .value h

theorem Records.mark {units : List UnitId} {v : Visit} {e : Exchange} (h : v.Records units e)
    (slot : Nat) (target : Option UnitId) (pre : Clock) :
    (v.mark slot target pre).Records units e := by
  cases h with
  | step h ha hslot htarget =>
    simp only [Visit.mark]
    split
    · exact .step (fits_widen h slot) ha (hslot.trans (widen_chosen slot _).symm) htarget
    · exact .step h ha hslot htarget
  | value h => exact .value h

theorem lt_of_fits {units : List UnitId} {count chosen : UInt64} {e : Exchange}
    (h : (Fork.value count chosen).Fits units e) : chosen.toNat < count.toNat := by
  change (Fork.value count chosen).Offers units chosen.toNat e at h
  cases h with
  | boolean _ h => exact h
  | integer _ h => exact h

theorem toNat_succ {count chosen : UInt64} (h : chosen.toNat < count.toNat) :
    (chosen + 1).toNat = chosen.toNat + 1 := by
  have hsize := count.toNat_lt
  rw [UInt64.toNat_add]
  exact Nat.mod_eq_of_lt (Nat.lt_of_le_of_lt h hsize)

/-- A choice that cannot be moved on has nothing left to take. -/
theorem spent_of_next?_eq_none {units : List UnitId} {v : Visit} {e : Exchange}
    (h : v.fork.Fits units e) (hnext : v.fork.next? = none) {k : Nat} (hk : v.fork.Plans k) :
    v.Spent k := by
  cases v with
  | step b ev =>
    simp only [fork, Fork.next?, Option.map_eq_none_iff] at hnext
    have hnone := SlotSet.first?_eq_none hnext k
    by_contra hspent
    have hdiff : (b.toTry.difference b.tried).contains k = true :=
      SlotSet.contains_difference.2 ⟨hk, by simpa [Visit.Spent] using hspent⟩
    rw [hnone] at hdiff
    cases hdiff
  | value count chosen =>
    have hlt := lt_of_fits h
    simp only [fork, Fork.next?] at hnext
    split at hnext
    · cases hnext
    · rename_i hstop
      rw [UInt64.lt_iff_toNat_lt, toNat_succ hlt] at hstop
      change k < count.toNat at hk
      show k ≤ chosen.toNat
      omega

/-- A choice that is moved on takes an alternative that has not been taken. -/
structure Moves (v : Visit) (f : Fork) : Prop where
  offers : ∀ units k e, f.Offers units k e ↔ v.fork.Offers units k e
  plans : ∀ k, f.Plans k ↔ v.fork.Plans k
  spent : ∀ k, f.Spent k ↔ v.Spent k
  unspent : ¬ v.Spent f.taken

theorem moves_of_next? {units : List UnitId} {v : Visit} {f : Fork} {e : Exchange}
    (h : v.fork.Fits units e) (hnext : v.fork.next? = some f) : v.Moves f := by
  cases v with
  | step b ev =>
    simp only [fork, Fork.next?, Option.map_eq_some_iff] at hnext
    obtain ⟨slot, hslot, rfl⟩ := hnext
    obtain ⟨_, hfresh⟩ := SlotSet.contains_difference.1 (SlotSet.contains_of_first? hslot)
    refine ⟨offers_of_enabled rfl, fun _ => .rfl, fun _ => .rfl, ?_⟩
    show ¬ b.tried.contains slot = true
    rw [hfresh]
    decide
  | value count chosen =>
    have hone := toNat_succ (lt_of_fits h)
    simp only [fork, Fork.next?] at hnext
    split at hnext
    · cases hnext
      refine ⟨fun units k e => ⟨?_, ?_⟩, fun _ => .rfl, fun k => ?_, ?_⟩
      · rintro (_ | ⟨hcount, hk⟩ | ⟨hcount, hk⟩)
        · exact .boolean hcount hk
        · exact .integer hcount hk
      · rintro (_ | ⟨hcount, hk⟩ | ⟨hcount, hk⟩)
        · exact .boolean hcount hk
        · exact .integer hcount hk
      · show k < (chosen + 1).toNat ↔ k ≤ chosen.toNat
        rw [hone]
        omega
      · show ¬ (chosen + 1).toNat ≤ chosen.toNat
        rw [hone]
        omega
    · cases hnext

/-- What is taken next is an alternative of the fork. -/
theorem exists_offers_of_next? {units : List UnitId} {v : Visit} {f : Fork} {e : Exchange}
    (h : v.fork.Fits units e) (hsound : v.fork.Sound) (hnext : v.fork.next? = some f) :
    ∃ w ∈ e.request.replies, f.Fits units ⟨e.request, w⟩ := by
  cases v with
  | step b ev =>
    simp only [fork, Fork.next?, Option.map_eq_some_iff] at hnext
    obtain ⟨slot, hslot, rfl⟩ := hnext
    have hsound : b.Sound := hsound
    have henabled := hsound.toTry slot
      (SlotSet.contains_difference.1 (SlotSet.contains_of_first? hslot)).1
    change (Fork.branch b).Offers units b.chosen e at h
    cases h with
    | unit hset hu hk =>
      obtain ⟨w, hw, hslot⟩ := (hset.contains slot).1 henabled
      exact ⟨w, hw, .unit hset hw hslot⟩
  | value count chosen =>
    have hone := toNat_succ (lt_of_fits h)
    simp only [fork, Fork.next?] at hnext
    split at hnext
    · rename_i hlt
      rw [UInt64.lt_iff_toNat_lt] at hlt
      cases hnext
      change (Fork.value count chosen).Offers units chosen.toNat e at h
      cases h with
      | @boolean _ _ _ max hcount _ =>
        have hnext : (Fork.value count (chosen + 1)).Offers units (chosen + 1).toNat
            ⟨.boolean max, _⟩ := .boolean hcount hlt
        exact ⟨_, hnext.mem_replies, hnext⟩
      | @integer _ _ _ max hcount _ =>
        have hnext : (Fork.value count (chosen + 1)).Offers units (chosen + 1).toNat
            ⟨.integer max, _⟩ := .integer hcount hlt
        exact ⟨_, hnext.mem_replies, hnext⟩
    · cases hnext

end Visit

end Interleave
