import Interleave.Proofs.PartialOrder.Branches

/-!
# Interleave.Proofs.Conformance.Composed

The plans that campaigns and replays are made of, and that they all make proper answers.
-/

namespace Interleave
namespace Plan

/-- A random walk, a search or a replay, with the liveness check over it or without. -/
def IsComposed : Plan → Prop
  | random _ _ => True
  | depthFirst _ => True
  | partialOrder _ => True
  | replay _ _ => True
  | watch _ _ _ base => base.IsComposed
  | _ => False

/-- A composed plan without the liveness check. -/
def IsBase : Plan → Prop
  | random _ _ => True
  | depthFirst _ => True
  | partialOrder _ => True
  | replay _ _ => True
  | _ => False

theorem IsBase.isComposed {p : Plan} (h : p.IsBase) : p.IsComposed := by
  cases p with
  | watch => exact h.elim
  | random => trivial
  | depthFirst => trivial
  | partialOrder => trivial
  | replay => trivial
  | scripted => exact h.elim
  | transition => exact h.elim
  | wholeTrace => exact h.elim

theorem conforms (p : Plan) (hp : p.IsComposed) :
    ∃ Inv, p.strategy.Conforms Inv ∧ Inv p.start := by
  induction p with
  | random seed bound => exact ⟨_, randomWalk_conforms, trivial⟩
  | depthFirst bound => exact ⟨_, depthFirst_conforms, trivial⟩
  | partialOrder bound =>
    exact ⟨_, partialOrder_conforms, PartialOrder.sound_new bound⟩
  | replay trace fair => exact ⟨_, replay_conforms, trivial⟩
  | watch seed safetyPrefix threshold base ih =>
    obtain ⟨Inv, hconforms, hstart⟩ := ih hp
    exact ⟨_, watched_conforms hconforms, hstart⟩
  | scripted script => exact hp.elim
  | transition trace fair fairBound maxWalks suffix => exact hp.elim
  | wholeTrace trace fair fairBound maxWalks => exact hp.elim

end Plan
end Interleave
