import Mathlib.Data.Set.Basic
import Mathlib.Logic.Function.Basic
import Mathlib.Tactic.Common

/-! Progress counters of a reduction over a two-level tree in which every leaf waits for a
result before it sends its next contribution. A contribution climbs from a leaf to the node
above it and, once per node, to the root; a result falls back the same way. -/
namespace CloudSim

/-- The leaves, the nodes above them, and the root above those. -/
structure Shape (W T : Type) where
  leaves : Set W
  inner : Set T
  above : W → T
  maps : ∀ w ∈ leaves, above w ∈ inner
  onto : ∀ t ∈ inner, ∃ w ∈ leaves, above w = t

/-- How often each stage of the way up and down was passed. -/
structure Ladder (W T : Type) where
  sent : W → Nat
  counted : W → Nat
  merged : T → Nat
  joined : T → Nat
  reduced : Nat
  relayed : T → Nat
  got : W → Nat

namespace Ladder

def ground : Ladder W T := ⟨fun _ => 0,fun _ => 0,fun _ => 0,fun _ => 0,0,fun _ => 0,fun _ => 0⟩

/-- No stage is ahead of the stage before it, and no leaf has two contributions under way. -/
structure Ordered (shape : Shape W T) (l : Ladder W T) : Prop where
  counted_le : ∀ w ∈ shape.leaves, l.counted w ≤ l.sent w
  merged_le : ∀ w ∈ shape.leaves, l.merged (shape.above w) ≤ l.counted w
  joined_le : ∀ t ∈ shape.inner, l.joined t ≤ l.merged t
  reduced_le : ∀ t ∈ shape.inner, l.reduced ≤ l.joined t
  relayed_le : ∀ t ∈ shape.inner, l.relayed t ≤ l.reduced
  got_le : ∀ w ∈ shape.leaves, l.got w ≤ l.relayed (shape.above w)
  window : ∀ w ∈ shape.leaves, l.sent w ≤ l.got w + 1

theorem ground_ordered (shape : Shape W T) : (ground : Ladder W T).Ordered shape := by
  constructor <;> intros <;> simp [ground]

section moves
variable (l : Ladder W T)

def send [DecidableEq W] (w : W) : Ladder W T :=
  { l with sent := Function.update l.sent w (l.sent w + 1) }

def count [DecidableEq W] (w : W) : Ladder W T :=
  { l with counted := Function.update l.counted w (l.counted w + 1) }

def merge [DecidableEq T] (t : T) : Ladder W T :=
  { l with merged := Function.update l.merged t (l.merged t + 1) }

def join [DecidableEq T] (t : T) : Ladder W T :=
  { l with joined := Function.update l.joined t (l.joined t + 1) }

def reduce : Ladder W T := { l with reduced := l.reduced + 1 }

def relay [DecidableEq T] (t : T) : Ladder W T :=
  { l with relayed := Function.update l.relayed t (l.relayed t + 1) }

def receive [DecidableEq W] (w : W) : Ladder W T :=
  { l with got := Function.update l.got w (l.got w + 1) }

end moves

namespace Ordered
variable {shape : Shape W T} {l : Ladder W T}

theorem counted_near (ordered : l.Ordered shape) (leaf : w ∈ shape.leaves) :
    l.counted w ≤ l.merged (shape.above w) + 1 := by
  have node := shape.maps w leaf
  have counted := ordered.counted_le w leaf
  have window := ordered.window w leaf
  have got := ordered.got_le w leaf
  have relayed := ordered.relayed_le _ node
  have reduced := ordered.reduced_le _ node
  have joined := ordered.joined_le _ node
  omega

theorem merged_near (ordered : l.Ordered shape) (node : t ∈ shape.inner) :
    l.merged t ≤ l.relayed t + 1 := by
  obtain ⟨w,leaf,rfl⟩ := shape.onto t node
  have merged := ordered.merged_le w leaf
  have counted := ordered.counted_le w leaf
  have window := ordered.window w leaf
  have got := ordered.got_le w leaf
  omega

theorem joined_near (ordered : l.Ordered shape) (node : t ∈ shape.inner) :
    l.joined t ≤ l.reduced + 1 := by
  have joined := ordered.joined_le t node
  have merged := ordered.merged_near node
  have relayed := ordered.relayed_le t node
  omega

theorem reduced_near (ordered : l.Ordered shape) (node : t ∈ shape.inner) :
    l.reduced ≤ l.relayed t + 1 := by
  have reduced := ordered.reduced_le t node
  have joined := ordered.joined_le t node
  have merged := ordered.merged_near node
  omega

theorem relayed_near (ordered : l.Ordered shape) (leaf : w ∈ shape.leaves) :
    l.relayed (shape.above w) ≤ l.got w + 1 := by
  have node := shape.maps w leaf
  have relayed := ordered.relayed_le _ node
  have reduced := ordered.reduced_le _ node
  have joined := ordered.joined_le _ node
  have merged := ordered.merged_le w leaf
  have counted := ordered.counted_le w leaf
  have window := ordered.window w leaf
  omega

theorem got_le_counted (ordered : l.Ordered shape) (leaf : w ∈ shape.leaves)
    (other : v ∈ shape.leaves) : l.got w ≤ l.counted v := by
  have node := shape.maps v other
  have got := ordered.got_le w leaf
  have relayed := ordered.relayed_le _ (shape.maps w leaf)
  have reduced := ordered.reduced_le _ node
  have joined := ordered.joined_le _ node
  have merged := ordered.merged_le v other
  omega

theorem got_le_sent (ordered : l.Ordered shape) (leaf : w ∈ shape.leaves)
    (other : v ∈ shape.leaves) : l.got w ≤ l.sent v :=
  (ordered.got_le_counted leaf other).trans (ordered.counted_le v other)

theorem send [DecidableEq W] (ordered : l.Ordered shape) (ready : l.sent w = l.got w) :
    (l.send w).Ordered shape := by
  refine { ordered with counted_le := fun v leaf => ?_, window := fun v leaf => ?_ }
  all_goals
    have counted := ordered.counted_le v leaf
    have window := ordered.window v leaf
    rcases eq_or_ne v w with rfl | other
  · simp only [Ladder.send,Function.update_self]; omega
  · simpa only [Ladder.send,Function.update_of_ne other] using counted
  · simp only [Ladder.send,Function.update_self]; omega
  · simpa only [Ladder.send,Function.update_of_ne other] using window

theorem count [DecidableEq W] (ordered : l.Ordered shape) (pending : l.counted w < l.sent w) :
    (l.count w).Ordered shape := by
  refine { ordered with counted_le := fun v leaf => ?_, merged_le := fun v leaf => ?_ }
  all_goals
    have counted := ordered.counted_le v leaf
    have merged := ordered.merged_le v leaf
    rcases eq_or_ne v w with rfl | other
  · simpa only [Ladder.count,Function.update_self] using Nat.succ_le_of_lt pending
  · simpa only [Ladder.count,Function.update_of_ne other] using counted
  · simp only [Ladder.count,Function.update_self]; omega
  · simpa only [Ladder.count,Function.update_of_ne other] using merged

theorem merge [DecidableEq T] (ordered : l.Ordered shape)
    (complete : ∀ w ∈ shape.leaves, shape.above w = t → l.merged t < l.counted w) :
    (l.merge t).Ordered shape := by
  refine { ordered with merged_le := fun w leaf => ?_, joined_le := fun s node => ?_ }
  · have merged := ordered.merged_le w leaf
    rcases eq_or_ne (shape.above w) t with same | other
    · simpa only [Ladder.merge,same,Function.update_self] using
        Nat.succ_le_of_lt (complete w leaf same)
    · simpa only [Ladder.merge,Function.update_of_ne other] using merged
  · have joined := ordered.joined_le s node
    rcases eq_or_ne s t with rfl | other
    · simp only [Ladder.merge,Function.update_self]; omega
    · simpa only [Ladder.merge,Function.update_of_ne other] using joined

theorem join [DecidableEq T] (ordered : l.Ordered shape) (pending : l.joined t < l.merged t) :
    (l.join t).Ordered shape := by
  refine { ordered with joined_le := fun s node => ?_, reduced_le := fun s node => ?_ }
  all_goals
    have joined := ordered.joined_le s node
    have reduced := ordered.reduced_le s node
    rcases eq_or_ne s t with rfl | other
  · simpa only [Ladder.join,Function.update_self] using Nat.succ_le_of_lt pending
  · simpa only [Ladder.join,Function.update_of_ne other] using joined
  · simp only [Ladder.join,Function.update_self]; omega
  · simpa only [Ladder.join,Function.update_of_ne other] using reduced

theorem reduce (ordered : l.Ordered shape)
    (complete : ∀ t ∈ shape.inner, l.reduced < l.joined t) : l.reduce.Ordered shape :=
  { ordered with
    reduced_le := complete
    relayed_le := fun t node => Nat.le_succ_of_le (ordered.relayed_le t node) }

theorem relay [DecidableEq T] (ordered : l.Ordered shape) (pending : l.relayed t < l.reduced) :
    (l.relay t).Ordered shape := by
  refine { ordered with relayed_le := fun s node => ?_, got_le := fun w leaf => ?_ }
  · have relayed := ordered.relayed_le s node
    rcases eq_or_ne s t with rfl | other
    · simpa only [Ladder.relay,Function.update_self] using Nat.succ_le_of_lt pending
    · simpa only [Ladder.relay,Function.update_of_ne other] using relayed
  · have got := ordered.got_le w leaf
    rcases eq_or_ne (shape.above w) t with same | other
    · simp only [Ladder.relay,same,Function.update_self] at got ⊢; omega
    · simpa only [Ladder.relay,Function.update_of_ne other] using got

theorem receive [DecidableEq W] (ordered : l.Ordered shape)
    (pending : l.got w < l.relayed (shape.above w)) :
    (l.receive w).Ordered shape := by
  refine { ordered with got_le := fun v leaf => ?_, window := fun v leaf => ?_ }
  all_goals
    have got := ordered.got_le v leaf
    have window := ordered.window v leaf
    rcases eq_or_ne v w with rfl | other
  · simpa only [Ladder.receive,Function.update_self] using Nat.succ_le_of_lt pending
  · simpa only [Ladder.receive,Function.update_of_ne other] using got
  · simp only [Ladder.receive,Function.update_self]; omega
  · simpa only [Ladder.receive,Function.update_of_ne other] using window

end Ordered
end Ladder
end CloudSim
