import Mathlib.Algebra.BigOperators.Group.List.Basic
import Mathlib.Algebra.Order.Field.Rat
import Mathlib.Data.Finset.Card

/-! Finite maps as lookup functions. Absent keys are kept apart from keys that hold
the default, and `get` reads an absent key as the default, as `operator[]` does. -/
namespace CloudSim

def Table (K V : Type) := K → Option V

namespace Table

instance : Inhabited (Table K V) := ⟨fun _ => none⟩

/-- `operator[]` on the right of an assignment. -/
def get [Inhabited V] (m : Table K V) (k : K) : V := (m k).getD default

def put [DecidableEq K] (m : Table K V) (k : K) (v : V) : Table K V :=
  fun i => if i = k then some v else m i

def erase [DecidableEq K] (m : Table K V) (k : K) : Table K V :=
  fun i => if i = k then none else m i

def contains (m : Table K V) (k : K) : Bool := (m k).isSome

@[simp] theorem get_default [Inhabited V] (k : K) : (default : Table K V).get k = default := rfl

variable [DecidableEq K] [Inhabited V] (m : Table K V)

@[simp] theorem get_put_same (k : K) (v : V) : (m.put k v).get k = v := by simp [get,put]

@[simp] theorem get_erase_same (k : K) : (m.erase k).get k = default := by simp [get,erase]

theorem get_put (i k : K) (v : V) : (m.put k v).get i = if i = k then v else m.get i := by
  by_cases same : i = k <;> simp [get,put,same]

@[simp] theorem get_put_other (h : i ≠ k) (v : V) : (m.put k v).get i = m.get i := by
  simp [get,put,h]

@[simp] theorem get_erase_other (h : i ≠ k) : (m.erase k).get i = m.get i := by
  simp [get,erase,h]

omit [Inhabited V] in
@[simp] theorem put_same (k : K) (v : V) : (m.put k v) k = some v := by simp [put]

omit [Inhabited V] in
@[simp] theorem put_other (h : i ≠ k) (v : V) : (m.put k v) i = m i := by simp [put,h]

omit [Inhabited V] in
@[simp] theorem erase_same (k : K) : (m.erase k) k = none := by simp [erase]

omit [Inhabited V] in
@[simp] theorem erase_other (h : i ≠ k) : (m.erase k) i = m i := by simp [erase,h]

end Table
end CloudSim
