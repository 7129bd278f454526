import CloudSim.Switch
import Mathlib.Data.List.Nodup
import Mathlib.Logic.Function.Basic
import Mathlib.Tactic.Common

/-! One slot of one switch. Each child of the switch contributes once per round; `own`
counts the rounds that the switch has closed and `cnt` the contributions of each child. -/
namespace CloudSim

/-- The contributions that a counter stands for; `n_workers` marks a closed round. -/
def Switch.load (n value : Nat) : Nat := if value = n then 0 else value

theorem Switch.nextCount_eq (children : m ≤ n) (several : 2 ≤ n) (few : n + 1 < 2^32)
    (room : load n value < m) (small : value ≤ n) :
    nextCount value n m = if load n value + 1 = m then 0 else load n value + 1 := by
  unfold load at room ⊢
  unfold nextCount
  rw [u32_of_lt (by omega)]
  by_cases closed : value = n
  · subst closed
    rw [if_pos rfl] at room ⊢
    have one : (value + 1) % value = 1 := by
      rw [Nat.add_mod_left,Nat.mod_eq_of_lt (by omega)]
    rw [one,Nat.zero_add]
    by_cases single : 1 = m
    · rw [if_pos single,← single]
    · rw [if_neg single,Nat.mod_eq_of_lt (by omega)]
  · rw [if_neg closed] at room ⊢
    by_cases last : value + 1 = m
    · rw [if_pos last,last]
      rcases Nat.eq_or_lt_of_le children with rfl | below
      · rw [Nat.mod_self,Nat.zero_mod]
      · rw [Nat.mod_eq_of_lt below,Nat.mod_self]
    · rw [if_neg last,Nat.mod_eq_of_lt (show value + 1 < n by omega),
        Nat.mod_eq_of_lt (show value + 1 < m by omega)]

def ahead (children : List Nat) (cnt : Nat → Nat) (own : Nat) : Nat :=
  children.countP fun c => decide (own < cnt c)

section ahead
variable {children : List Nat} {cnt : Nat → Nat} {own : Nat}

theorem ahead_full : ahead children cnt own = children.length ↔ ∀ c ∈ children, own < cnt c := by
  simp [ahead,List.countP_eq_length]

theorem ahead_none : ahead children cnt own = 0 ↔ ∀ c ∈ children, cnt c ≤ own := by
  simp [ahead,List.countP_eq_zero]

theorem ahead_lt (child : c ∈ children) (behind : cnt c ≤ own) :
    ahead children cnt own < children.length := by
  refine Nat.lt_of_le_of_ne List.countP_le_length fun full => ?_
  exact absurd (ahead_full.mp full c child) (Nat.not_lt.mpr behind)

theorem ahead_update (distinct : children.Nodup) (child : c ∈ children) (behind : cnt c ≤ own) :
    ahead children (Function.update cnt c (own + 1)) own = ahead children cnt own + 1 := by
  induction children with
  | nil => cases child
  | cons head rest ih =>
    obtain ⟨absent,distinct⟩ := List.nodup_cons.mp distinct
    simp only [ahead,List.countP_cons] at ih ⊢
    by_cases here : head = c
    · subst here
      have others : rest.countP (fun c => decide (own < Function.update cnt head (own + 1) c)) =
          rest.countP fun c => decide (own < cnt c) := by
        apply List.countP_congr
        intro d member
        have other : d ≠ head := fun same => absent (same ▸ member)
        rw [Function.update_of_ne other]
      simp [others,Nat.not_lt.mpr behind]
    · rw [ih distinct ((List.mem_cons.mp child).resolve_left fun same => here same.symm),
        Function.update_of_ne here]
      omega

end ahead

/-- The counters of a slot against the contributions of its open round, whose version is
`ver own`. A clean-up can make a counter fall behind; it never gets ahead, and with `exact`
it does not fall behind either. -/
structure Station (exact : Prop) (n : Nat) (children : List Nat) (cnt : Nat → Nat) (own : Nat)
    (ver : Nat → Nat) (counts : Nat → Nat) : Prop where
  small : ∀ v, counts v ≤ n
  upper : ∀ v, Switch.load n (counts v) ≤ if v = ver own then ahead children cnt own else 0
  lower : exact → ahead children cnt own ≤ Switch.load n (counts (ver own))
  opened : exact → ahead children cnt own < children.length

namespace Station
variable {exact : Prop} {n : Nat} {children : List Nat} {cnt : Nat → Nat} {own : Nat}
  {ver counts : Nat → Nat}

theorem room (station : Station exact n children cnt own ver counts) (child : c ∈ children)
    (behind : cnt c ≤ own) : Switch.load n (counts (ver own)) < children.length := by
  have upper := station.upper (ver own)
  rw [if_pos rfl] at upper
  exact Nat.lt_of_le_of_lt upper (ahead_lt child behind)

theorem count (station : Station exact n children cnt own ver counts) (distinct : children.Nodup)
    (few : children.length ≤ n) (child : c ∈ children) (behind : cnt c ≤ own)
    (more : Switch.load n (counts (ver own)) + 1 ≠ children.length) :
    Station exact n children (Function.update cnt c (own + 1)) own ver
      (Function.update counts (ver own) (Switch.load n (counts (ver own)) + 1)) := by
  have room := station.room child behind
  have step := ahead_update distinct child behind
  have load : Switch.load n (Switch.load n (counts (ver own)) + 1) =
      Switch.load n (counts (ver own)) + 1 := if_neg (by omega)
  have upper := station.upper (ver own)
  rw [if_pos rfl] at upper
  refine ⟨fun v => ?_,fun v => ?_,fun tight => ?_,fun tight => ?_⟩
  · rcases eq_or_ne v (ver own) with rfl | other
    · rw [Function.update_self]; omega
    · rw [Function.update_of_ne other]; exact station.small v
  · rcases eq_or_ne v (ver own) with rfl | other
    · rw [Function.update_self,load,if_pos rfl,step]; omega
    · rw [Function.update_of_ne other]
      have upper := station.upper v
      rwa [if_neg other] at upper ⊢
  · rw [Function.update_self,load,step]
    exact Nat.succ_le_succ (station.lower tight)
  · have lower := station.lower tight
    rw [step]
    omega

/-- Every child has contributed when the counter wraps around. -/
theorem complete (station : Station exact n children cnt own ver counts)
    (distinct : children.Nodup) (child : c ∈ children) (behind : cnt c ≤ own)
    (last : Switch.load n (counts (ver own)) + 1 = children.length) :
    ∀ d ∈ children, own < Function.update cnt c (own + 1) d := by
  have step := ahead_update distinct child behind
  have upper := station.upper (ver own)
  rw [if_pos rfl] at upper
  apply ahead_full.mp
  exact Nat.le_antisymm List.countP_le_length (by omega)

theorem close (station : Station exact n children cnt own ver counts)
    (child : c ∈ children) (near : ∀ d ∈ children, cnt d ≤ own + 1) (behind : cnt c ≤ own)
    (closed : value = n ∨ value = 0) :
    Station exact n children (Function.update cnt c (own + 1)) (own + 1) ver
      (Function.update counts (ver own) value) := by
  have none : ahead children (Function.update cnt c (own + 1)) (own + 1) = 0 := by
    refine ahead_none.mpr fun d member => ?_
    rcases eq_or_ne d c with rfl | other
    · rw [Function.update_self]
    · rw [Function.update_of_ne other]; exact near d member
  have empty (v : Nat) : Switch.load n (Function.update counts (ver own) value v) = 0 := by
    rcases eq_or_ne v (ver own) with rfl | other
    · rw [Function.update_self]
      rcases closed with rfl | rfl
      · exact if_pos rfl
      · exact ite_self 0
    · rw [Function.update_of_ne other]
      have upper := station.upper v
      rw [if_neg other] at upper
      exact Nat.le_zero.mp upper
  refine ⟨fun v => ?_,fun v => ?_,fun _ => ?_,fun _ => ?_⟩
  · rcases eq_or_ne v (ver own) with rfl | other
    · rw [Function.update_self]; rcases closed with rfl | rfl <;> omega
    · rw [Function.update_of_ne other]; exact station.small v
  · rw [empty]; exact Nat.zero_le _
  · rw [none]; exact Nat.zero_le _
  · rw [none]; exact List.length_pos_of_mem child

/-- A result from above marks the round of some version closed while no child is ahead. -/
theorem settle (station : Station exact n children cnt own ver counts)
    (idle : ∀ d ∈ children, cnt d ≤ own) :
    Station exact n children cnt own ver (Function.update counts v n) := by
  have none := ahead_none.mpr idle
  refine ⟨fun u => ?_,fun u => ?_,fun _ => ?_,fun tight => station.opened tight⟩
  · rcases eq_or_ne u v with rfl | other
    · rw [Function.update_self]
    · rw [Function.update_of_ne other]; exact station.small u
  · rcases eq_or_ne u v with rfl | other
    · rw [Function.update_self,Switch.load,if_pos rfl]; exact Nat.zero_le _
    · rw [Function.update_of_ne other]; exact station.upper u
  · rw [none]; exact Nat.zero_le _

theorem clean (station : Station exact n children cnt own ver counts)
    (idle : exact → ∀ d ∈ children, cnt d ≤ own) :
    Station exact n children cnt own ver fun _ => 0 := by
  refine ⟨fun _ => Nat.zero_le _,fun v => ?_,fun tight => ?_,station.opened⟩
  · rw [show Switch.load n 0 = 0 from ite_self 0]; exact Nat.zero_le _
  · rw [ahead_none.mpr (idle tight)]; exact Nat.zero_le _

end Station
end CloudSim
