import CloudSim.Collective
import CloudSim.ServerLoop

/-! The calls in progress and the loop that waits for them. -/
namespace CloudSim

def Awaited (c : Clients) (loop : ServerLoop A) : Prop :=
  ∀ call ∈ c.calls, ∃ rest, loop.instances call.waiter = some (.reducing rest)

namespace Awaited
variable {c : Clients} {loop : ServerLoop A} {id : Nat} {position : Position A}

theorem of_idle (idle : c.calls = []) : Awaited c loop := by
  intro call member
  rw [idle] at member
  cases member

theorem of_waiters (known : loop.instances id = some position)
    (leaves : position.isLeaving = true → c.calls = [])
    (waiters : ∀ call ∈ c.calls, call.waiter = id) : Awaited c loop := by
  intro call member
  rw [waiters call member,known]
  cases position with
  | leaving =>
    rw [leaves rfl] at member
    cases member
  | reducing rest => exact ⟨rest,rfl⟩

theorem answer (awaited : Awaited c loop) (chunkSize : Nat) (call : Call) :
    Awaited (c.answer chunkSize call) loop :=
  fun other member => awaited other (List.mem_of_mem_erase member)

theorem idle_of_stopped (awaited : Awaited c loop) (wellFormed : loop.WellFormed)
    (stopped : loop.loopIsRunning = false) : c.calls = [] := by
  apply List.eq_nil_iff_forall_not_mem.mpr
  intro call member
  obtain ⟨rest,known⟩ := awaited call member
  exact Bool.false_ne_true (stopped.symm.trans (wellFormed.running.mpr ⟨_,_,known⟩))

theorem idle_of_resume (awaited : Awaited c loop) (wellFormed : loop.WellFormed)
    (known : loop.instances id = some position) (ended : c.awaits id = false) : c.calls = [] := by
  apply List.eq_nil_iff_forall_not_mem.mpr
  intro call member
  obtain ⟨rest,also⟩ := awaited call member
  have same := wellFormed.single _ _ _ _ also known
  have none := List.any_eq_false.mp ended call member
  simp [same] at none

theorem not_awaits (awaited : Awaited c loop) (known : loop.instances id = some .leaving) :
    c.awaits id = false := by
  apply List.any_eq_false.mpr
  intro call member
  obtain ⟨rest,also⟩ := awaited call member
  simp only [beq_iff_eq]
  rintro rfl
  rw [known] at also
  cases also

end Awaited
end CloudSim
