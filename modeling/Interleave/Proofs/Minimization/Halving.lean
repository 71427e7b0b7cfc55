import Mathlib.Data.Nat.Find
import Mathlib.Data.Nat.Log
import Mathlib.Tactic.Ring
import Interleave.Minimize.Bisection

/-!
# Interleave.Proofs.Minimization.Halving

Halving an interval of lengths, whatever is found. The outcomes are an arbitrary sequence, as those
of random walks are: a length that shows the bug may lie below one that does not.

* `Bisection.Centred`: the length tried next is the middle of the interval. All operations keep
  this.
* `Bisection.Narrowed`: what so many outcomes make of an interval, kept by one more outcome
  (`Narrowed.of_found`, `Narrowed.of_missed`) as long as the interval is not empty.
* `Bisection.search_converges`: the search ends, how soon, and what has been tried around the length
  at which it ends.
* `Bisection.searchFor_critical`: where exactly the lengths from some length on show the bug, this
  length is found.
-/

namespace Interleave
namespace Bisection

section Centring

/-- The length tried next is the middle of the interval. -/
structure Centred (b : Bisection) : Prop where
  current_eq : b.current = middle b.left b.right
  le : b.left ≤ b.right

theorem centred_new (length : Nat) : (new length).Centred where
  current_eq := by simp [new, middle]
  le := Nat.zero_le _

theorem centred_set (left right : Nat) (b : Bisection) : (b.set left right).Centred where
  current_eq := rfl
  le := min_le_max

theorem centred_closeAt (length : Nat) (found : Bool) (b : Bisection) :
    (b.closeAt length found).Centred where
  current_eq := by simp [closeAt, middle]
  le := Nat.le_refl _

variable {b : Bisection}

theorem Centred.bounds (h : b.Centred) :
    b.left ≤ b.current ∧ b.current ≤ b.right ∧ 2 * (b.current - b.left) ≤ b.right - b.left ∧
      (b.left < b.right → b.current < b.right) := by
  have hle := h.le
  rw [h.current_eq, middle]
  omega

theorem Centred.update (h : b.Centred) (found : Bool) : (b.update found).2.Centred where
  current_eq := by cases found <;> rfl
  le := by
    cases found with
    | true => exact h.bounds.1
    | false => exact Nat.min_le_right _ _

/-- The current length itself is left out where it does not show the bug. -/
theorem Centred.halves (h : b.Centred) (found : Bool) :
    2 * ((b.update found).2.right - (b.update found).2.left) ≤ b.right - b.left := by
  have hle := h.le
  have hcurrent := h.current_eq
  rw [middle] at hcurrent
  cases found with
  | true => exact h.bounds.2.2.1
  | false =>
    show 2 * (b.right - min (b.current + 1) b.right) ≤ b.right - b.left
    omega

/-- An update says whether lengths are left. -/
theorem update_fst (found : Bool) (b : Bisection) :
    (b.update found).1 = decide ((b.update found).2.left < (b.update found).2.right) := rfl

end Centring

section Sizes

variable {size size' rounds n : Nat}

theorem shrinks_of_half (h : size * 2 ^ rounds ≤ n) (hhalf : 2 * size' ≤ size) :
    size' * 2 ^ (rounds + 1) ≤ n :=
  calc size' * 2 ^ (rounds + 1) = 2 * size' * 2 ^ rounds := by ring
    _ ≤ size * 2 ^ rounds := Nat.mul_le_mul_right _ hhalf
    _ ≤ n := h

theorem le_log2_of_shrinks (h : size * 2 ^ rounds ≤ n) (hsize : 0 < size) (hn : 0 < n) :
    rounds ≤ Nat.log2 n :=
  (Nat.le_log2 hn.ne').2 (Nat.le_trans (Nat.le_mul_of_pos_left _ hsize) h)

end Sizes

/-- The cursor after the first `n` outcomes. -/
def after (outcome : Nat → Bool) (b : Bisection) : Nat → Bisection
  | 0 => b
  | n + 1 => ((after outcome b n).update (outcome n)).2

/-- One of the first `n` lengths tried is this one, with this outcome. -/
def Tried (outcome : Nat → Bool) (b : Bisection) (n length : Nat) (found : Bool) : Prop :=
  ∃ m < n, (b.after outcome m).current = length ∧ outcome m = found

/-- Where the interval ends: nothing has been found and it ends where it did, or it ends at the
length found last. -/
inductive EndsAt (outcome : Nat → Bool) (b : Bisection) (n right : Nat) (last : Option Nat) : Prop
  | unfound : right = b.right → last = b.lastFound → (∀ m < n, outcome m = false) →
    EndsAt outcome b n right last
  | found : last = some right → b.Tried outcome n right true → EndsAt outcome b n right last

/-- What `n` outcomes have made of an interval. No length tried lies in it, and one just before its
start did not show the bug. -/
structure Narrowed (outcome : Nat → Bool) (b : Bisection) (n : Nat) : Prop where
  centred : (b.after outcome n).Centred
  left_le : b.left ≤ (b.after outcome n).left
  right_le : (b.after outcome n).right ≤ b.right
  shrinks : ((b.after outcome n).right - (b.after outcome n).left) * 2 ^ n ≤ b.right - b.left
  outside : ∀ m < n, (b.after outcome m).current < (b.after outcome n).left ∨
    (b.after outcome n).right ≤ (b.after outcome m).current
  missed : (b.after outcome n).left = b.left ∨
    ∃ length, length + 1 = (b.after outcome n).left ∧ b.Tried outcome n length false
  ends : b.EndsAt outcome n (b.after outcome n).right (b.after outcome n).lastFound

section Narrowing

variable {outcome : Nat → Bool} {b : Bisection} {n length right : Nat} {found : Bool}
  {last : Option Nat}

theorem Tried.succ (h : b.Tried outcome n length found) : b.Tried outcome (n + 1) length found := by
  obtain ⟨m, hm, htried⟩ := h
  exact ⟨m, Nat.lt_succ_of_lt hm, htried⟩

theorem tried_current (hn : outcome n = found) :
    b.Tried outcome (n + 1) (b.after outcome n).current found :=
  ⟨n, Nat.lt_succ_self n, rfl, hn⟩

theorem EndsAt.missed (h : b.EndsAt outcome n right last) (hn : outcome n = false) :
    b.EndsAt outcome (n + 1) right last := by
  cases h with
  | unfound hright hlast hnone =>
    refine .unfound hright hlast fun m hm => ?_
    rcases Nat.lt_succ_iff_lt_or_eq.1 hm with hm | rfl
    · exact hnone m hm
    · exact hn
  | found hlast htried => exact .found hlast htried.succ

theorem narrowed_zero (h : b.Centred) : b.Narrowed outcome 0 where
  centred := h
  left_le := Nat.le_refl _
  right_le := Nat.le_refl _
  shrinks := by simp [after]
  outside := nofun
  missed := .inl rfl
  ends := .unfound rfl rfl nofun

theorem after_found (hn : outcome n = true) : b.after outcome (n + 1) =
    ⟨(b.after outcome n).left, (b.after outcome n).current,
      middle (b.after outcome n).left (b.after outcome n).current,
      some (b.after outcome n).current⟩ := by
  rw [after, hn]
  rfl

/-- Where lengths are left the current one lies among them. -/
theorem after_missed (h : (b.after outcome n).Centred)
    (hopen : (b.after outcome n).left < (b.after outcome n).right) (hn : outcome n = false) :
    b.after outcome (n + 1) =
      ⟨(b.after outcome n).current + 1, (b.after outcome n).right,
        middle ((b.after outcome n).current + 1) (b.after outcome n).right,
        (b.after outcome n).lastFound⟩ := by
  have hnext : min ((b.after outcome n).current + 1) (b.after outcome n).right =
      (b.after outcome n).current + 1 := Nat.min_eq_left (h.bounds.2.2.2 hopen)
  rw [after, hn]
  simp only [update, Bool.false_eq_true, if_false, hnext]

theorem Narrowed.of_found (h : b.Narrowed outcome n) (hn : outcome n = true) :
    b.Narrowed outcome (n + 1) := by
  obtain ⟨hleft, hright, -, -⟩ := h.centred.bounds
  have hcentred : (b.after outcome (n + 1)).Centred := h.centred.update _
  have hshrinks := shrinks_of_half h.shrinks (h.centred.halves (outcome n))
  constructor
  case centred => exact hcentred
  case shrinks => exact hshrinks
  all_goals rw [after_found hn]
  case left_le => exact h.left_le
  case right_le => exact Nat.le_trans hright h.right_le
  case outside =>
    intro m hm
    rcases Nat.lt_succ_iff_lt_or_eq.1 hm with hm | rfl
    · exact (h.outside m hm).imp_right (Nat.le_trans hright)
    · exact .inr (Nat.le_refl _)
  case missed => exact h.missed.imp_right fun ⟨length, hlength, htried⟩ =>
    ⟨length, hlength, htried.succ⟩
  case ends => exact .found rfl (tried_current hn)

theorem Narrowed.of_missed (h : b.Narrowed outcome n)
    (hopen : (b.after outcome n).left < (b.after outcome n).right) (hn : outcome n = false) :
    b.Narrowed outcome (n + 1) := by
  obtain ⟨hleft, hright, -, -⟩ := h.centred.bounds
  have hcentred : (b.after outcome (n + 1)).Centred := h.centred.update _
  have hshrinks := shrinks_of_half h.shrinks (h.centred.halves (outcome n))
  constructor
  case centred => exact hcentred
  case shrinks => exact hshrinks
  all_goals rw [after_missed h.centred hopen hn]
  case left_le => exact Nat.le_succ_of_le (Nat.le_trans h.left_le hleft)
  case right_le => exact h.right_le
  case outside =>
    intro m hm
    rcases Nat.lt_succ_iff_lt_or_eq.1 hm with hm | rfl
    · refine (h.outside m hm).imp_left fun hlt => ?_
      exact Nat.lt_succ_of_lt (Nat.lt_of_lt_of_le hlt hleft)
    · exact .inl (Nat.lt_succ_self _)
  case missed => exact .inr ⟨_, rfl, tried_current hn⟩
  case ends => exact h.ends.missed hn

/-- By induction on the outcomes. -/
theorem narrowed (hb : b.Centred) (n : Nat)
    (hopen : ∀ m < n, (b.after outcome m).left < (b.after outcome m).right) :
    b.Narrowed outcome n := by
  induction n with
  | zero => exact narrowed_zero hb
  | succ n ih =>
    have hn := ih fun m hm => hopen m (Nat.lt_succ_of_lt hm)
    cases houtcome : outcome n with
    | true => exact hn.of_found houtcome
    | false => exact hn.of_missed (hopen n (Nat.lt_succ_self n)) houtcome

end Narrowing

/-- A search that ends with the outcome number `rounds`, and the length at which it does. -/
structure Converges (outcome : Nat → Bool) (b : Bisection) (rounds length : Nat) : Prop where
  rounds_pos : 0 < rounds
  rounds_le : rounds ≤ Nat.log2 (b.right - b.left) + 1
  goesOn : ∀ n < rounds, ((b.after outcome n).update (outcome n)).1 = decide (n + 1 < rounds)
  within : ∀ n ≤ rounds, b.left ≤ (b.after outcome n).left ∧
    (b.after outcome n).left ≤ (b.after outcome n).current ∧
    (b.after outcome n).current ≤ (b.after outcome n).right ∧
    (b.after outcome n).right ≤ b.right
  distinct : ∀ m n, m < n → n < rounds → (b.after outcome m).current ≠ (b.after outcome n).current
  closed : (b.after outcome rounds).left = length ∧ (b.after outcome rounds).right = length ∧
    (b.after outcome rounds).current = length
  missed : length = b.left ∨ ∃ shorter, shorter + 1 = length ∧ b.Tried outcome rounds shorter false
  ends : b.EndsAt outcome rounds length (b.after outcome rounds).lastFound

section Converging

variable {outcome : Nat → Bool} {b : Bisection} {rounds length : Nat}

/-- A round at which lengths are left has halved the interval, so that it is not empty for good. -/
theorem exists_rounds (hb : b.Centred) (hopen : b.left < b.right) (outcome : Nat → Bool) :
    ∃ rounds ≤ Nat.log2 (b.right - b.left) + 1,
      ¬ (b.after outcome rounds).left < (b.after outcome rounds).right ∧
      ∀ m < rounds, (b.after outcome m).left < (b.after outcome m).right := by
  classical
  have hends : ∃ n ≤ Nat.log2 (b.right - b.left) + 1,
      ¬ (b.after outcome n).left < (b.after outcome n).right := by
    by_contra hnone
    push Not at hnone
    have hlast : b.Narrowed outcome (Nat.log2 (b.right - b.left) + 1) :=
      narrowed hb _ fun m hm => hnone m (Nat.le_of_lt hm)
    have hleft := hnone _ (Nat.le_refl _)
    have := le_log2_of_shrinks hlast.shrinks (Nat.sub_pos_of_lt hleft) (Nat.sub_pos_of_lt hopen)
    omega
  refine ⟨Nat.find hends, (Nat.find_spec hends).1, (Nat.find_spec hends).2, fun m hm => ?_⟩
  by_contra hclosed
  exact Nat.find_min hends hm ⟨(Nat.le_of_lt hm).trans (Nat.find_spec hends).1, hclosed⟩

theorem Centred.converges (hb : b.Centred) (hopen : b.left < b.right) (outcome : Nat → Bool) :
    ∃ rounds length, b.Converges outcome rounds length := by
  obtain ⟨rounds, hrounds, hclosed, hbefore⟩ := exists_rounds hb hopen outcome
  have hnarrowed : ∀ n ≤ rounds, b.Narrowed outcome n := fun n hn =>
    narrowed hb n fun m hm => hbefore m (Nat.lt_of_lt_of_le hm hn)
  have hlast := hnarrowed rounds (Nat.le_refl _)
  have hle := hlast.centred.le
  have hbounds := hlast.centred.bounds
  have hright : (b.after outcome rounds).right = (b.after outcome rounds).left := by omega
  refine ⟨rounds, (b.after outcome rounds).left, ?_, hrounds, ?_, ?_, ?_, ?_, hlast.missed, ?_⟩
  case refine_1 =>
    refine Nat.pos_of_ne_zero ?_
    rintro rfl
    exact hclosed hopen
  case refine_2 =>
    intro n hn
    rw [update_fst, decide_eq_decide]
    constructor
    · intro hleft
      refine Nat.lt_of_le_of_ne hn ?_
      rintro rfl
      exact hclosed hleft
    · exact hbefore (n + 1)
  case refine_3 =>
    intro n hn
    obtain ⟨hleft, hright, -, -⟩ := (hnarrowed n hn).centred.bounds
    exact ⟨(hnarrowed n hn).left_le, hleft, hright, (hnarrowed n hn).right_le⟩
  case refine_4 =>
    intro m n hmn hn
    have hout := (hnarrowed n (Nat.le_of_lt hn)).outside m hmn
    obtain ⟨hleft, -, -, hlt⟩ := (hnarrowed n (Nat.le_of_lt hn)).centred.bounds
    have hlt := hlt (hbefore n hn)
    omega
  case refine_5 => exact ⟨rfl, hright, by omega⟩
  case refine_6 =>
    have hends := hlast.ends
    rw [hright] at hends
    exact hends

/-- Where the outcomes are those of a threshold, the search ends there. -/
theorem Converges.eq_threshold (h : b.Converges outcome rounds length) {c : Nat}
    (hleft : b.left ≤ c) (hright : c ≤ b.right)
    (hc : ∀ n < rounds, outcome n = decide (c ≤ (b.after outcome n).current)) : length = c := by
  refine Nat.le_antisymm ?_ ?_
  · rcases h.missed with rfl | ⟨shorter, rfl, m, hm, rfl, hmissed⟩
    · exact hleft
    · rw [hc m hm, decide_eq_false_iff_not] at hmissed
      omega
  · have hends := h.ends
    cases hends with
    | unfound heq => exact heq ▸ hright
    | found _ htried =>
      obtain ⟨m, hm, rfl, hfound⟩ := htried
      rw [hc m hm, decide_eq_true_eq] at hfound
      exact hfound

end Converging

/-- A cursor over a whole trace, or one that is set between two lengths. -/
inductive Begun : Bisection → Prop
  | new (length : Nat) : Begun (new length)
  | set (left right : Nat) (b : Bisection) : Begun (b.set left right)

theorem Begun.centred {b : Bisection} (h : b.Begun) : b.Centred := by
  cases h with
  | new length => exact centred_new length
  | set left right b => exact centred_set left right b

section Threshold

variable {outcome : Nat → Bool} {b : Bisection} {c rounds length : Nat}

/-- The search by a threshold goes through the same cursors as one with the outcomes that the
threshold gives on the way. -/
theorem searchFor_after (h : b.Converges outcome rounds length)
    (hc : ∀ n < rounds, outcome n = decide (c ≤ (b.after outcome n).current)) (left : Nat) :
    ∀ n more, n + left = rounds → 0 < left → left ≤ more →
      (b.after outcome n).searchFor c more = (left, b.after outcome rounds) := by
  induction left with
  | zero => exact fun _ _ _ hpos => absurd hpos (Nat.lt_irrefl 0)
  | succ left ih =>
    intro n more hn _ hmore
    obtain ⟨more, rfl⟩ := Nat.exists_eq_add_of_le' (Nat.le_of_add_left_le hmore)
    have hlt : n < rounds := by omega
    have hstep : (b.after outcome n).update (decide (c ≤ (b.after outcome n).current)) =
        (decide (n + 1 < rounds), b.after outcome (n + 1)) := by
      rw [← hc n hlt]
      exact Prod.ext (h.goesOn n hlt) rfl
    rw [searchFor, hstep]
    by_cases hlast : n + 1 < rounds
    · rw [decide_eq_true hlast]
      simp only [ih (n + 1) more (by omega) (by omega) (by omega)]
    · obtain rfl : left = 0 := by omega
      rw [decide_eq_false hlast, ← hn]

theorem exists_threshold_outcomes (c : Nat) (b : Bisection) :
    ∃ outcome, ∀ n, outcome n = decide (c ≤ (b.after outcome n).current) := by
  let cursor : Nat → Bisection := Nat.rec b fun _ b => (b.update (decide (c ≤ b.current))).2
  have hcursor : ∀ n, b.after (fun n => decide (c ≤ (cursor n).current)) n = cursor n := by
    intro n
    induction n with
    | zero => rfl
    | succ n ih => rw [after, ih]
  exact ⟨fun n => decide (c ≤ (cursor n).current), fun n => by rw [hcursor]⟩

/-- Where exactly the lengths from `c` on show the bug, `c` is found in logarithmically many
rounds. -/
theorem searchFor_critical (hb : b.Begun) (hopen : b.left < b.right) (hleft : b.left ≤ c)
    (hright : c ≤ b.right) : ∃ rounds ≤ Nat.log2 (b.right - b.left) + 1, ∀ more, rounds ≤ more →
      ∃ last, b.searchFor c more = (rounds, last) ∧
        last.left = c ∧ last.right = c ∧ last.current = c := by
  obtain ⟨outcome, hc⟩ := exists_threshold_outcomes c b
  obtain ⟨rounds, length, h⟩ := hb.centred.converges hopen outcome
  obtain rfl := h.eq_threshold hleft hright fun n _ => hc n
  refine ⟨rounds, h.rounds_le, fun more hmore => ⟨_, ?_, h.closed⟩⟩
  exact searchFor_after h (fun n _ => hc n) rounds 0 more (Nat.zero_add _) h.rounds_pos hmore

example : ((new 100).searchFor 37 9).1 = 7 := by decide

end Threshold

/-- A search ends for any outcomes, after logarithmically many rounds, without trying a length
twice. The length at which it ends is the start of the interval or lies behind one that has missed
the bug, and it is the end of the interval or has shown the bug; it is the threshold where the
outcomes have one. -/
theorem search_converges {b : Bisection} (hb : b.Begun) (hopen : b.left < b.right)
    (outcome : Nat → Bool) : ∃ rounds length, b.Converges outcome rounds length ∧
      ∀ c, b.left ≤ c → c ≤ b.right →
        (∀ n < rounds, outcome n = decide (c ≤ (b.after outcome n).current)) → length = c := by
  obtain ⟨rounds, length, h⟩ := hb.centred.converges hopen outcome
  exact ⟨rounds, length, h, fun c hleft hright hc => h.eq_threshold hleft hright hc⟩

/-- Between 2 and 6 the lengths 4 and 3 show the bug and 2 does not. -/
theorem search_converges_between :
    let b := (new 10).set 6 2
    let outcome := fun n => decide (n < 2)
    b.Begun ∧ b.left < b.right ∧ ∃ rounds, b.Converges outcome rounds 3 := by
  intro b outcome
  have hbegun : b.Begun := .set 6 2 (new 10)
  have hopen : b.left < b.right := by decide
  obtain ⟨rounds, length, h, hthreshold⟩ := search_converges hbegun hopen outcome
  refine ⟨hbegun, hopen, rounds, ?_⟩
  have hrounds : rounds ≤ 3 := h.rounds_le.trans (by decide +kernel)
  have houtcome : ∀ n < 3, outcome n = decide (3 ≤ (b.after outcome n).current) := by decide
  obtain rfl := hthreshold 3 (by decide) (by decide) fun n hn =>
    houtcome n (Nat.lt_of_lt_of_le hn hrounds)
  exact h

end Bisection
end Interleave
