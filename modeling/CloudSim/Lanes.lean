import Mathlib.Data.Nat.Basic

/-! Items dealt out to lanes in turn, pass after pass: in every pass lane `s` carries the
items `s`, `s + lanes`, `s + 2 * lanes` and so on. -/
namespace CloudSim.Lanes

/-- How many of the items lane `s` carries in one pass. -/
def rounds (items lanes s : Nat) : Nat := (items + lanes - 1 - s) / lanes

/-- The item that lane `s` carries at step `q`, counted over all passes. -/
def item (items lanes s q : Nat) : Nat := s + q % rounds items lanes s * lanes

theorem lt_rounds (lane : s < lanes) : r < rounds items lanes s ↔ s + r * lanes < items := by
  have positive : 0 < lanes := Nat.zero_lt_of_lt lane
  rw [rounds,← Nat.succ_le_iff,Nat.le_div_iff_mul_le positive,Nat.succ_mul]
  omega

theorem rounds_pos (lane : s < lanes) : 0 < rounds items lanes s ↔ s < items := by
  rw [lt_rounds lane,Nat.zero_mul,Nat.add_zero]

section item
variable {lanes s : Nat} (lane : s < lanes)
include lane

theorem item_mod (items q : Nat) : item items lanes s q % lanes = s := by
  rw [item,Nat.add_mul_mod_self_right,Nat.mod_eq_of_lt lane]

theorem item_div (items q : Nat) :
    item items lanes s q / lanes = q % rounds items lanes s := by
  rw [item,Nat.add_mul_div_right _ _ (Nat.zero_lt_of_lt lane),Nat.div_eq_of_lt lane,Nat.zero_add]

theorem item_lt (used : 0 < rounds items lanes s) (q : Nat) : item items lanes s q < items :=
  (lt_rounds lane).mp (Nat.mod_lt q used)

end item

theorem mod_succ (more : q % n + 1 < n) : (q + 1) % n = q % n + 1 := by
  rw [Nat.add_mod,Nat.mod_eq_of_lt (show 1 < n by omega),Nat.mod_eq_of_lt more]

theorem div_succ (more : q % n + 1 < n) : (q + 1) / n = q / n := by
  have split := Nat.mod_add_div q n
  rw [show q + 1 = q % n + 1 + n * (q / n) by omega,
    Nat.add_mul_div_left _ _ (show 0 < n by omega),Nat.div_eq_of_lt more,Nat.zero_add]

theorem item_succ (more : q % rounds items lanes s + 1 < rounds items lanes s) :
    item items lanes s (q + 1) = item items lanes s q + lanes := by
  rw [item,item,mod_succ more,Nat.succ_mul]
  omega

/-- Step `pass * n + r` is step `r` of its pass. -/
theorem of_pass {n pass r : Nat} (within : r < n) :
    (pass * n + r) % n = r ∧ (pass * n + r) / n = pass := by
  have positive : 0 < n := Nat.zero_lt_of_lt within
  constructor
  · rw [Nat.mul_comm,Nat.mul_add_mod,Nat.mod_eq_of_lt within]
  · rw [Nat.mul_comm,Nat.mul_add_div positive,Nat.div_eq_of_lt within,Nat.add_zero]

/-- Where item `i` is carried in a pass. -/
theorem item_of_pass {i : Nat} (within : i / lanes < rounds items lanes (i % lanes)) (pass : Nat) :
    item items lanes (i % lanes) (pass * rounds items lanes (i % lanes) + i / lanes) = i := by
  rw [item,(of_pass within).1,Nat.mul_comm]
  exact Nat.mod_add_div i lanes

end CloudSim.Lanes
