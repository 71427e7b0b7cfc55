import Interleave.Proofs.ChoiceTree
import Interleave.Proofs.Conformance.Composed

/-!
# Interleave.Proofs.Conformance.Plain

The strategies that series of runs are made with, without the liveness check: an answer follows from
the request and the state of the strategy alone, and is one of the replies that the request leaves
open. For integers the path that a search keeps must be within range.

* `Strategy.Plain`: an answer is so, in every state that an invariant holds of.
* `randomWalk_plain`, `depthFirst_plain`, `partialOrder_plain`: the three strategies.
-/

namespace Interleave

/-- A strategy that does not look at the scene, and makes one of the replies left open. -/
structure Strategy.Plain {τ : Type} (S : Strategy τ)
    (reply : (r : Request) → τ → Except Refusal r.Reply × τ) (Inv : τ → Prop) : Prop where
  answer_eq : ∀ r scene s, S.answer r scene s = .blind scene (reply r s)
  keeps : ∀ r s, Inv s → Inv (reply r s).2
  prepare : ∀ s, Inv s → Inv (S.prepare s).2
  reset : ∀ s, Inv s → Inv (S.reset s)
  mem_replies : ∀ {r s v}, Inv s → (reply r s).1 = .ok v → v ∈ r.replies

theorem mem_replies_boolean {max : UInt64} (v : Bool) : v ∈ (Request.boolean max).replies := by
  cases v <;> simp [Request.replies]

theorem mem_replies_integer {max : UInt64} {i : Nat} (h : i < (alternativesOf max).toNat) :
    UInt64.ofNat i ∈ (Request.integer max).replies :=
  List.mem_map.2 ⟨i, List.mem_range.2 h, rfl⟩

theorem randomWalk_plain : RandomWalk.strategy.Plain RandomWalk.reply fun _ => True where
  answer_eq _ _ _ := rfl
  keeps _ _ _ := trivial
  prepare _ _ := trivial
  reset _ _ := trivial
  mem_replies := by
    intro r s v _ hv
    have hserved := randomWalk_conforms.served r .empty s trivial
    cases r with
    | unit candidates current =>
      rw [show (RandomWalk.strategy.answer _ _ _).result = _ from hv] at hserved
      exact hserved.admits
    | boolean max => exact mem_replies_boolean v
    | integer max =>
      cases hv
      exact mem_replies_integer (Source.below_lt (alternativesOf_pos max) s.source)

section DepthFirst

/-- Every choice on the path is one of its alternatives. -/
def DepthFirst.InRange (s : DepthFirst) : Prop :=
  (∀ b ∈ s.passed, b.taken < b.alternatives.count) ∧
    ∀ b ∈ s.ahead, b.taken < b.alternatives.count

theorem DepthFirst.visit_inRange {s : DepthFirst} (h : s.InRange) (alternatives : Alternatives)
    (hpos : 0 < alternatives.count) :
    (s.visit alternatives).2.InRange ∧
      ∀ i, (s.visit alternatives).1 = .ok i → i < alternatives.count := by
  unfold visit
  split
  · refine ⟨⟨List.forall_mem_cons.2 ⟨hpos, h.1⟩, nofun⟩, fun i hi => ?_⟩
    cases hi
    exact hpos
  · rename_i b ahead hahead
    obtain ⟨hb, hrest⟩ := List.forall_mem_cons.1 (hahead ▸ h.2)
    split
    · rename_i heq
      refine ⟨⟨List.forall_mem_cons.2 ⟨hb, h.1⟩, hrest⟩, fun i hi => ?_⟩
      cases hi
      exact heq ▸ hb
    · exact ⟨h, nofun⟩

theorem Branching.next?_lt {b b' : Branching} (h : b.next? = some b') :
    b'.taken < b'.alternatives.count := by
  unfold next? at h
  split at h
  · rename_i hlt
    cases h
    exact hlt
  · cases h

theorem DepthFirst.prepare_inRange {s : DepthFirst} (h : s.InRange) : s.prepare.2.InRange :=
  ⟨nofun, fun b hb => forall_mem_backtrack h.1 (fun _ _ _ => Branching.next?_lt) b
    (List.mem_reverse.1 hb)⟩

theorem depthFirst_plain : DepthFirst.strategy.Plain DepthFirst.reply DepthFirst.InRange where
  answer_eq _ _ _ := rfl
  keeps := by
    intro r s hs
    cases r with
    | unit candidates current =>
      simp only [DepthFirst.reply]
      split
      · exact hs
      · rename_i first rest _
        exact (DepthFirst.visit_inRange hs (.units (first :: rest)) (Nat.succ_pos _)).1
    | boolean max => exact (DepthFirst.visit_inRange hs .booleans Nat.zero_lt_two).1
    | integer max => exact (DepthFirst.visit_inRange hs (.integers _) (alternativesOf_pos max)).1
  prepare _ := DepthFirst.prepare_inRange
  reset _ _ := ⟨nofun, nofun⟩
  mem_replies := by
    intro r s v hs hv
    have hserved := depthFirst_conforms.served r .empty s trivial
    cases r with
    | unit candidates current =>
      rw [show (DepthFirst.strategy.answer _ _ _).result = _ from hv] at hserved
      exact hserved.admits
    | boolean max => exact mem_replies_boolean v
    | integer max =>
      obtain ⟨i, hi, rfl⟩ : ∃ i, (s.visit (.integers (alternativesOf max))).1 = .ok i ∧
          UInt64.ofNat i = v := by
        have hv : (s.visit (.integers (alternativesOf max))).1.map UInt64.ofNat = .ok v := hv
        cases hvisit : (s.visit (.integers (alternativesOf max))).1 with
        | error refusal => rw [hvisit] at hv; cases hv
        | ok i => rw [hvisit] at hv; cases hv; exact ⟨i, rfl, rfl⟩
      exact mem_replies_integer
        ((DepthFirst.visit_inRange hs (.integers _) (alternativesOf_pos max)).2 i hi)

end DepthFirst

section PartialOrder

def Fork.InRange : Fork → Prop
  | .branch _ => True
  | .value count chosen => chosen < count

/-- Every value on the path is one of its alternatives. -/
def PartialOrder.InRange (s : PartialOrder) : Prop :=
  (∀ v ∈ s.passed, v.fork.InRange) ∧ ∀ f ∈ s.ahead, f.InRange

theorem Fork.next?_inRange {f f' : Fork} (h : f.next? = some f') : f'.InRange := by
  cases f with
  | branch b =>
    simp only [next?, Option.map_eq_some_iff] at h
    obtain ⟨slot, -, rfl⟩ := h
    trivial
  | value count chosen =>
    simp only [next?] at h
    split at h
    · rename_i hlt
      cases h
      exact hlt
    · cases h

theorem PartialOrder.visitValue_inRange {s : PartialOrder} (h : s.InRange) {count : UInt64}
    (hpos : 0 < count) :
    (s.visitValue count).2.InRange ∧ ∀ v, (s.visitValue count).1 = .ok v → v < count := by
  unfold visitValue
  split
  · refine ⟨⟨List.forall_mem_cons.2 ⟨hpos, h.1⟩, nofun⟩, fun v hv => ?_⟩
    cases hv
    exact hpos
  · rename_i recorded chosen ahead hahead
    obtain ⟨hchosen, hrest⟩ := List.forall_mem_cons.1 (hahead ▸ h.2)
    split
    · rename_i heq
      refine ⟨⟨List.forall_mem_cons.2 ⟨heq ▸ hchosen, h.1⟩, hrest⟩, fun v hv => ?_⟩
      cases hv
      exact heq ▸ hchosen
    · exact ⟨h, nofun⟩
  · exact ⟨h, nofun⟩

theorem PartialOrder.commit_inRange {s : PartialOrder} (h : s.InRange) (b : Branch)
    (target : Option UnitId) {ahead : List Fork} (hahead : ∀ f ∈ ahead, f.InRange) :
    (s.commit b target ahead).InRange := by
  refine ⟨List.forall_mem_cons.2 ⟨trivial, ?_⟩, hahead⟩
  split
  · exact h.1
  · intro v hv
    obtain ⟨w, hw, rfl⟩ := List.mem_map.1 hv
    have hw := h.1 w hw
    cases w with
    | step b e => trivial
    | value count chosen => exact hw

theorem PartialOrder.branchHere_inRange {s : PartialOrder} (h : s.InRange) {enabled : SlotSet}
    {b : Branch} {ahead : List Fork} (hhere : s.branchHere enabled = some (b, ahead)) :
    ∀ f ∈ ahead, f.InRange := by
  unfold branchHere at hhere
  split at hhere
  · cases hhere
    nofun
  · rename_i b ahead hahead
    split at hhere
    · cases hhere
      exact (List.forall_mem_cons.1 (hahead ▸ h.2)).2
    · cases hhere
  · cases hhere

theorem PartialOrder.visitUnit_inRange {s : PartialOrder} (hs : s.Sound) (h : s.InRange)
    (candidates : List Candidate) : (s.visitUnit candidates).2.InRange := by
  have ht : (s.trackAll .empty (enabledIds candidates)).2.InRange := by
    rw [(trackAll_spec (enabledIds candidates) s .empty hs.slots).1.rest]
    exact h
  unfold visitUnit
  split
  · rename_i t hall
    rw [hall] at ht
    exact ht
  · rename_i enabled t hall
    rw [hall] at ht
    split
    · exact ht
    · split
      · exact ht
      · rename_i b ahead hhere
        split
        · exact ht
        · exact commit_inRange ht b _ (branchHere_inRange ht hhere)

theorem PartialOrder.prepare_inRange {s : PartialOrder} (h : s.InRange) :
    s.prepare.2.InRange :=
  ⟨nofun, fun f hf => forall_mem_backtrack (List.forall_mem_map.2 h.1)
    (fun _ _ _ => Fork.next?_inRange) f (List.mem_reverse.1 hf)⟩

theorem partialOrder_plain : PartialOrder.strategy.Plain PartialOrder.reply
    fun s => s.Sound ∧ s.InRange where
  answer_eq _ _ _ := rfl
  keeps := by
    intro r s hs
    refine ⟨partialOrder_conforms.answer r .empty s hs.1, ?_⟩
    cases r with
    | unit candidates current => exact PartialOrder.visitUnit_inRange hs.1 hs.2 candidates
    | boolean max => exact (PartialOrder.visitValue_inRange hs.2 (by decide)).1
    | integer max => exact (PartialOrder.visitValue_inRange hs.2 (alternativesOf_pos max)).1
  prepare s hs := ⟨partialOrder_conforms.prepare s hs.1, PartialOrder.prepare_inRange hs.2⟩
  reset s hs := ⟨partialOrder_conforms.reset s hs.1, nofun, nofun⟩
  mem_replies := by
    intro r s v hs hv
    have hserved := partialOrder_conforms.served r .empty s hs.1
    cases r with
    | unit candidates current =>
      rw [show (PartialOrder.strategy.answer _ _ _).result = _ from hv] at hserved
      exact hserved.admits
    | boolean max => exact mem_replies_boolean v
    | integer max =>
      have hlt := (PartialOrder.visitValue_inRange hs.2 (alternativesOf_pos max)).2 v hv
      rw [← UInt64.ofNat_toNat (x := v)]
      exact mem_replies_integer hlt

end PartialOrder

/-- The plans of series of runs, without the liveness check. -/
theorem plain_of_basePlan {c : Configuration} {drawn : UInt64} {base : Plan}
    (h : c.basePlan drawn = .ok base) :
    ∃ reply Inv, base.strategy.Plain reply Inv ∧ Inv base.start := by
  unfold Configuration.basePlan at h
  split at h
  all_goals cases h
  · exact ⟨_, _, randomWalk_plain, trivial⟩
  · exact ⟨_, _, depthFirst_plain, nofun, nofun⟩
  · exact ⟨_, _, partialOrder_plain, PartialOrder.sound_new _, nofun, nofun⟩

end Interleave
