import CloudSim.Cluster

/-! No run of the cluster loses, creates or over-commits a GPU. -/
namespace CloudSim

/-- The GPUs that unfinished executions hold on one worker. -/
def gpusHeld (executing : List Execution) (worker : Nat) : Nat :=
  ((executing.filter fun e => e.worker == worker).map Execution.gpusRequired).sum

theorem gpusHeld_cons (e : Execution) (rest : List Execution) (worker : Nat) :
    gpusHeld (e :: rest) worker =
      (if e.worker = worker then e.gpusRequired else 0) + gpusHeld rest worker := by
  by_cases here : e.worker = worker <;> simp [gpusHeld,here]

theorem gpusHeld_erase {executing : List Execution} (member : e ∈ executing) (worker : Nat) :
    (if e.worker = worker then e.gpusRequired else 0) + gpusHeld (executing.erase e) worker =
      gpusHeld executing worker := by
  rw [← gpusHeld_cons]
  exact (((List.perm_cons_erase member).symm.filter _).map _).sum_nat

namespace Cluster

structure Conserved (site : Site) (c : Cluster) : Prop where
  gpus : ∀ w, c.gpu w + gpusHeld c.executing w = site.gpuCapacity w
  exact : c.wrapped = false
  totals : ∀ start ∈ c.placed, start.2.total = start.1.gpu

/-! Most fields of a cluster say nothing about GPUs. -/

theorem Conserved.frame {site : Site} {c d : Cluster} (conserved : Conserved site c)
    (gpu : d.gpu = c.gpu) (executing : d.executing = c.executing) (wrapped : d.wrapped = c.wrapped)
    (placed : d.placed = c.placed) : Conserved site d :=
  ⟨by rw [gpu,executing]; exact conserved.gpus,by rw [wrapped]; exact conserved.exact,
    by rw [placed]; exact conserved.totals⟩

theorem awaitSubmission_conserved {site : Site} {c : Cluster} (conserved : Conserved site c) :
    Conserved site c.awaitSubmission := by
  unfold awaitSubmission
  split <;> exact conserved.frame rfl rfl rfl rfl

theorem initial_conserved (site : Site) (jobs : List Job) (submitAllJobs : Bool) :
    Conserved site (initial site jobs submitAllJobs) := by
  unfold initial
  split
  · exact ⟨fun _ => rfl,rfl,by simp⟩
  · exact awaitSubmission_conserved ⟨fun _ => rfl,rfl,by simp⟩

theorem gpu_small {site : Site} {c : Cluster} (conserved : Conserved site c) (w : Nat) :
    c.gpu w < 2^32 := by
  have sum := conserved.gpus w
  have fits := site.capacityFits w
  omega

theorem executeJob_conserved {site : Site} {c : Cluster} (conserved : Conserved site c)
    (job : Job) (rank : Nat) {w gpus : Nat} (available : gpus ≤ c.gpu w) :
    Conserved site (executeJob job c ((w,gpus),rank)) := by
  refine ⟨fun v => ?_,by simpa [executeJob] using ⟨conserved.exact,available⟩,conserved.totals⟩
  have sum := conserved.gpus v
  simp only [executeJob,gpusHeld_cons]
  by_cases same : v = w
  · subst same
    simp only [if_true]
    rw [sub32_of_le available (gpu_small conserved v)]
    omega
  · simpa only [if_neg same,if_neg (Ne.symm same),Nat.zero_add] using sum

/-- By induction on the run configuration: its other workers keep their free GPUs. -/
theorem executeJobs_conserved {site : Site} (job : Job) (config : RunConfig) (rank : Nat)
    {c : Cluster} (conserved : Conserved site c) (distinct : config.wids.Nodup)
    (available : ∀ entry ∈ config, entry.2 ≤ c.gpu entry.1) :
    Conserved site ((config.zipIdx rank).foldl (executeJob job) c) := by
  induction config generalizing c rank with
  | nil => exact conserved
  | cons entry rest ih =>
    obtain ⟨w,gpus⟩ := entry
    obtain ⟨absent,distinct⟩ := List.nodup_cons.mp distinct
    have first := executeJob_conserved conserved job rank
      (available (w,gpus) List.mem_cons_self)
    refine ih (rank + 1) first distinct fun later member => ?_
    have other : later.1 ≠ w := by
      intro same
      exact absent (List.mem_map.mpr ⟨later,member,same⟩)
    simpa only [executeJob,if_neg other] using available later (List.mem_cons_of_mem _ member)

theorem startJob_conserved {site : Site} {c : Cluster} (conserved : Conserved site c)
    {job : Job} {config order : RunConfig} (granted : Granted c.gpu job config)
    (nonempty : config ≠ []) (iterated : order.Perm config) :
    Conserved site (c.startJob job order) := by
  have total : order.total = job.gpu :=
    (iterated.map Prod.snd).sum_nat.trans (granted.total nonempty)
  have distinct : order.wids.Nodup := (iterated.map Prod.fst).nodup_iff.mpr granted.distinct
  have totals : ∀ start ∈ (job,order) :: c.placed, start.2.total = start.1.gpu := by
    intro start member
    rcases List.mem_cons.mp member with rfl | earlier
    · exact total
    · exact conserved.totals start earlier
  unfold startJob
  dsimp only
  rw [checkIfAllJobsStarted_eq]
  exact executeJobs_conserved job order 0 ⟨conserved.gpus,conserved.exact,totals⟩ distinct
    fun entry member => granted.available entry (iterated.subset member)

theorem finish_conserved {site : Site} {c : Cluster} (conserved : Conserved site c)
    (member : e ∈ c.executing) : Conserved site (c.finish e) := by
  have returned : Conserved site { c with
      gpu := fun w => if w = e.worker then u32 (c.gpu w + e.gpusRequired) else c.gpu w
      executing := c.executing.erase e } := by
    refine ⟨fun w => ?_,conserved.exact,conserved.totals⟩
    have sum := conserved.gpus w
    have fits := site.capacityFits w
    have held := gpusHeld_erase member w
    dsimp only
    by_cases same : w = e.worker
    · simp only [same,if_true] at sum held fits ⊢
      rw [u32_of_lt (by omega)]
      omega
    · simp only [if_neg same,if_neg (Ne.symm same)] at held ⊢
      omega
  obtain ⟨flag,same⟩ := finish_eq c e
  rw [same]
  exact returned.frame rfl rfl rfl rfl

theorem schedule_conserved {site : Site} {algo : SchedulingAlgo} {placement : PlacementAlgo}
    {c d : Cluster} {draws : Draws} {order : RunConfig} (conserved : Conserved site c)
    (taken : c.schedule site algo placement draws order = some d) : Conserved site d := by
  obtain ⟨⟨chosen,draws⟩,_,taken⟩ := Option.bind_eq_some_iff.mp taken
  cases chosen with
  | none => cases taken; exact conserved.frame rfl rfl rfl rfl
  | some job =>
    obtain ⟨⟨config,rest⟩,placed,taken⟩ := Option.bind_eq_some_iff.mp taken
    have granted := placement.placeJobIn_granted (gpu_small conserved) placed
    dsimp only at taken
    split at taken
    · cases taken; exact conserved.frame rfl rfl rfl rfl
    · split at taken
      · cases taken
        exact (startJob_conserved conserved granted ‹_› ‹_›).frame rfl rfl rfl rfl
      · cases taken

theorem step_conserved {site : Site} {algo : SchedulingAlgo} {placement : PlacementAlgo}
    (l : ClusterStep) (c d : Cluster) (conserved : Conserved site c)
    (taken : step site algo placement l c = some d) : Conserved site d := by
  unfold step at taken
  split at taken
  · cases taken
  · cases l with
    | tick =>
      dsimp only at taken
      split at taken <;> cases taken
      exact conserved.frame rfl rfl rfl rfl
    | submit =>
      simp only [submit] at taken
      split at taken
      · cases taken
      · split at taken <;> cases taken
        exact awaitSubmission_conserved (conserved.frame rfl rfl rfl rfl)
    | schedule =>
      dsimp only at taken
      split at taken
      · exact schedule_conserved conserved taken
      · cases taken
    | wake =>
      dsimp only at taken
      split at taken <;> cases taken
      exact conserved.frame rfl rfl rfl rfl
    | finish e =>
      dsimp only at taken
      split at taken
      · rename_i member; cases taken; exact finish_conserved conserved member
      · cases taken

/-- In every reachable state each worker's free and held GPUs are its capacity, no
subtraction has wrapped, and every started job holds or held exactly the GPUs it asked for. -/
theorem gpus_conserved (site : Site) (algo : SchedulingAlgo) (placement : PlacementAlgo)
    (jobs : List Job) (submitAllJobs : Bool) (c : Cluster)
    (run : Runs.Run (step site algo placement) Runs.anyStep (initial site jobs submitAllJobs) c) :
    (∀ w ∈ site.workers, c.gpu w + gpusHeld c.executing w = site.gpuCapacity w) ∧
      c.wrapped = false ∧
      ∀ start ∈ c.placed, 1 ≤ start.1.gpu → start.2.total = start.1.gpu := by
  have conserved := run.invariant
    (fun l s t holds _ taken => step_conserved l s t holds taken)
    (initial_conserved site jobs submitAllJobs)
  exact ⟨fun w _ => conserved.gpus w,conserved.exact,
    fun start member _ => conserved.totals start member⟩

/-- Two ToRs with two workers of four GPUs each. -/
def twoRacks : Site where
  workers := [0,1,2,3]
  switches := [0,1]
  tor w := w / 2
  gpuCapacity _ := 4
  workersDistinct := by decide
  covered := by decide
  capacityFits _ := by decide

def twoJobs : List ClusterStep :=
  [.schedule [[0],[0,0,0,1,1,1],[1],[2,2,2,2,3,3]] [(3,2),(2,4)],
    .schedule [[1],[0]] [(0,3)],.finish ⟨3,0,0,2⟩]

/-- Both jobs run, the first on the two workers of a ToR, and one worker has finished. -/
theorem gpus_conserved_two_jobs :
    ∃ c, Runs.Run (step twoRacks .fitFirst (.yarn true)) Runs.anyStep
        (initial twoRacks [⟨0,6,0⟩,⟨1,3,0⟩] true) c ∧
      c.placed.length = 2 ∧ c.executing = [⟨0,1,0,3⟩,⟨2,0,1,4⟩] ∧
      (∀ w ∈ twoRacks.workers, c.gpu w + gpusHeld c.executing w = 4) ∧
      c.wrapped = false ∧
      ∀ start ∈ c.placed, 1 ≤ start.1.gpu → start.2.total = start.1.gpu := by
  have ends : (Runs.exec (step twoRacks .fitFirst (.yarn true)) Runs.anyStep twoJobs
      (initial twoRacks [⟨0,6,0⟩,⟨1,3,0⟩] true)).map (fun c => (c.placed.length,c.executing)) =
      some (2,[⟨0,1,0,3⟩,⟨2,0,1,4⟩]) := by decide
  obtain ⟨c,run,view⟩ := Runs.exists_run_of_exec ends
  obtain ⟨placed,executing⟩ := Prod.mk.injEq _ _ _ _ ▸ view
  exact ⟨c,run,placed,executing,gpus_conserved twoRacks _ _ _ _ c run⟩

end Cluster
end CloudSim
