import Mathlib.Algebra.BigOperators.Group.List.Basic
import Mathlib.Algebra.Order.Field.Rat

/-! A server that serves one job at a time, in the order in which they arrive: service begins when
the job has arrived and the job before it has left. -/
namespace CloudSim.Lindley

/-- When the jobs `(arrival,service)` leave a server that is free from `free` on. -/
def departures (free : Nat) : List (Nat × Nat) → List Nat
  | [] => []
  | (arrival,service) :: rest =>
    (max arrival free + service) :: departures (max arrival free + service) rest

def freeAfter (free : Nat) : List (Nat × Nat) → Nat
  | [] => free
  | (arrival,service) :: rest => freeAfter (max arrival free + service) rest

@[simp] theorem departures_nil (free : Nat) : departures free [] = [] := rfl

@[simp] theorem freeAfter_nil (free : Nat) : freeAfter free [] = free := rfl

@[simp] theorem departures_length (free : Nat) (jobs : List (Nat × Nat)) :
    (departures free jobs).length = jobs.length := by
  induction jobs generalizing free with
  | nil => rfl
  | cons job rest ih => simp [departures,ih]

theorem departures_append (free : Nat) (jobs later : List (Nat × Nat)) :
    departures free (jobs ++ later) =
      departures free jobs ++ departures (freeAfter free jobs) later := by
  induction jobs generalizing free with
  | nil => rfl
  | cons job rest ih => simp [departures,freeAfter,ih]

theorem freeAfter_append (free : Nat) (jobs later : List (Nat × Nat)) :
    freeAfter free (jobs ++ later) = freeAfter (freeAfter free jobs) later := by
  induction jobs generalizing free with
  | nil => rfl
  | cons job rest ih => exact ih _

theorem departures_waiting (arrived : arrival ≤ free) (service : Nat) (rest : List (Nat × Nat)) :
    departures free ((arrival,service) :: rest) =
      (free + service) :: departures (free + service) rest := by
  simp [departures,Nat.max_eq_right arrived]

theorem departures_idle (idle : free ≤ arrival) (service : Nat) :
    departures free [(arrival,service)] = [arrival + service] := by
  simp [departures,Nat.max_eq_left idle]

theorem le_departures (free : Nat) (jobs : List (Nat × Nat)) : ∀ d ∈ departures free jobs, free ≤ d := by
  induction jobs generalizing free with
  | nil => intro d none; cases none
  | cons job rest ih =>
    intro d member
    have first : free ≤ max job.1 free + job.2 :=
      Nat.le_trans (Nat.le_max_right _ _) (Nat.le_add_right _ _)
    rcases List.mem_cons.mp member with rfl | later
    · exact first
    · exact Nat.le_trans first (ih _ d later)

theorem arrival_le_departures (free : Nat) (jobs : List (Nat × Nat)) (arrival service : Nat) :
    ∀ d ∈ departures (freeAfter free jobs) [(arrival,service)], arrival ≤ d := by
  intro d member
  rw [departures,departures_nil,List.mem_singleton] at member
  exact member ▸ Nat.le_trans (Nat.le_max_left _ _) (Nat.le_add_right _ _)

/-- What has arrived by now is served within the time of all services. -/
theorem freeAfter_le {now : Nat} (arrived : ∀ job ∈ jobs, job.1 ≤ now) (idle : free ≤ now + late) :
    freeAfter free jobs ≤ now + late + (jobs.map Prod.snd).sum := by
  induction jobs generalizing free late with
  | nil => exact idle
  | cons job rest ih =>
    have first := arrived job List.mem_cons_self
    have next : max job.1 free + job.2 ≤ now + (late + job.2) := by omega
    have all := ih (fun j member => arrived j (List.mem_cons_of_mem _ member)) next
    rw [freeAfter,List.map_cons,List.sum_cons]
    omega

theorem le_freeAfter (free : Nat) (jobs : List (Nat × Nat)) :
    free + (jobs.map Prod.snd).sum ≤ freeAfter free jobs := by
  induction jobs generalizing free with
  | nil => exact Nat.le_refl _
  | cons job rest ih =>
    have later := ih (max job.1 free + job.2)
    rw [freeAfter,List.map_cons,List.sum_cons]
    omega

/-- A departure is that of some job, and the service goes on from there. -/
theorem departures_cut {jobs : List (Nat × Nat)} {times later : List Nat}
    (split : departures free jobs = times ++ d :: later) :
    ∃ before job behind, jobs = before ++ job :: behind ∧ before.length = times.length ∧
      d = freeAfter free (before ++ [job]) ∧ later = departures d behind := by
  induction times generalizing free jobs with
  | nil =>
    cases jobs with
    | nil => cases split
    | cons job behind =>
      obtain ⟨rfl,rfl⟩ := List.cons.inj split
      exact ⟨[],job,behind,rfl,rfl,rfl,rfl⟩
  | cons time times ih =>
    cases jobs with
    | nil => cases split
    | cons job rest =>
      obtain ⟨rfl,same⟩ := List.cons.inj split
      obtain ⟨before,last,behind,rfl,length,free,after⟩ := ih same
      exact ⟨job :: before,last,behind,rfl,congrArg Nat.succ length,free,after⟩

end CloudSim.Lindley
