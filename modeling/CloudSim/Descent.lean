import CloudSim.Runs
import Mathlib.Data.Multiset.DershowitzManna

/-! Runs whose steps lower a measure: none goes on for ever, and if every state that is not final
has a step, every state reaches a final one. -/
namespace CloudSim.Runs

/-- Steps that never stop. -/
def Endless (step : L → S → Option S) (ok : L → S → Prop) (s : S) : Prop :=
  ∃ (state : Nat → S) (label : Nat → L), state 0 = s ∧
    ∀ i, ok (label i) (state i) ∧ step (label i) (state i) = some (state (i + 1))

section descent
variable {step : L → S → Option S} {ok : L → S → Prop} {holds final : S → Prop}
  {order : M → M → Prop} (wf : WellFounded order) (measure : S → M)
  (lower : ∀ l s t, holds s → ok l s → step l s = some t → holds t ∧ order (measure t) (measure s))
include wf lower

theorem not_endless (initial : holds s) : ¬Endless step ok s := by
  rintro ⟨state,label,rfl,next⟩
  have kept (i : Nat) : holds (state i) := by
    induction i with
    | zero => exact initial
    | succ i ih => exact (lower _ _ _ ih (next i).1 (next i).2).1
  have none (m : M) : ∀ i, measure (state i) ≠ m := by
    induction m using wf.induction with
    | _ m ih =>
      rintro i rfl
      exact ih _ (lower _ _ _ (kept i) (next i).1 (next i).2).2 (i + 1) rfl
  exact none _ 0 rfl

theorem exists_final (progress : ∀ s, holds s → final s ∨ ∃ l t, ok l s ∧ step l s = some t)
    (initial : holds s) : ∃ t, Run step ok s t ∧ holds t ∧ final t := by
  generalize left : measure s = m
  induction m using wf.induction generalizing s with
  | _ m ih =>
    rcases progress s initial with ends | ⟨l,t,allowed,taken⟩
    · exact ⟨s,.nil,initial,ends⟩
    · obtain ⟨next,less⟩ := lower l s t initial allowed taken
      obtain ⟨u,run,reached⟩ := ih _ (left ▸ less) next rfl
      exact ⟨u,.cons allowed taken run,reached⟩

end descent

theorem replace_lt [DecidableEq A] {items new : List A} (rank : A → Nat) (member : a ∈ items)
    (lower : ∀ b ∈ new, rank b < rank a) :
    ((items.erase a ++ new).map rank : Multiset Nat).IsDershowitzMannaLT (items.map rank) := by
  refine ⟨(items.erase a).map rank,new.map rank,{rank a},Multiset.singleton_ne_zero _,?_,?_,
    fun y found => ?_⟩
  · rw [List.map_append]
    rfl
  · rw [add_comm]
    exact Multiset.coe_eq_coe.mpr ((List.perm_cons_erase member).map rank)
  · obtain ⟨b,inside,rfl⟩ := List.mem_map.mp (Multiset.mem_coe.mp found)
    exact ⟨_,Multiset.mem_singleton_self _,lower b inside⟩

end CloudSim.Runs
