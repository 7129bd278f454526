import CloudSim.Placement
import CloudSim.Runs

/-! The broker, the job scheduler and the jobs that run on the workers of a cluster. -/
namespace CloudSim

/-- An unfinished call of `execute_job`. -/
structure Execution where
  worker : Nat
  job : Nat
  rank : Nat
  gpusRequired : Nat
  deriving DecidableEq, Repr

/-- Where `cluster_scheduler` stands: in one of its two timeouts, past its loop, or past
`exit(1)`. -/
inductive SchedulerPhase where
  | choosing
  | waiting
  | ended
  | aborted
  deriving DecidableEq, Repr

/-- `placed` and `wrapped` are history: the jobs started with their run configurations, and
whether some `gpu -= gpus_required` was below zero. -/
structure Cluster where
  now : Nat := 0
  unsubmitted : List Job := []
  due : Nat := 0
  jobs : List Job := []
  allJobsSubmitted : Bool := false
  allJobsStarted : Bool := false
  allJobsFinished : Bool := false
  startTime : Nat → Option Nat := fun _ => none
  finishTime : Nat → Option Nat := fun _ => none
  gpu : Nat → Nat
  executing : List Execution := []
  scheduler : SchedulerPhase := .choosing
  placed : List (Job × RunConfig) := []
  wrapped : Bool := false

namespace Cluster

/-- The head of the loop in `broker`: it suspends until the next job's submission, or all
jobs are in. -/
def awaitSubmission (c : Cluster) : Cluster :=
  match c.unsubmitted with
  | [] => { c with allJobsSubmitted := true }
  | job :: _ => { c with due := c.now + sub64 job.submitTime c.now }

/-- The state in which `main` starts the simulation. -/
def initial (site : Site) (jobs : List Job) (submitAllJobs : Bool) : Cluster :=
  if submitAllJobs then { jobs := jobs, allJobsSubmitted := true, gpu := site.gpuCapacity }
  else awaitSubmission { unsubmitted := jobs, gpu := site.gpuCapacity }

def started (c : Cluster) (job : Job) : Bool := (c.startTime job.id).isSome

def finished (c : Cluster) (job : Job) : Bool := (c.finishTime job.id).isSome

def numRunningJobs (c : Cluster) : Nat :=
  (c.jobs.filter fun job => c.started job && !c.finished job).length

def checkIfAllJobsStarted (c : Cluster) : Cluster :=
  if c.allJobsSubmitted && c.jobs.all c.started then { c with allJobsStarted := true } else c

def checkIfAllJobsFinished (c : Cluster) : Cluster :=
  if c.allJobsStarted && c.jobs.all c.finished then { c with allJobsFinished := true } else c

/-- `execute_job` up to its first `co_await`. -/
def executeJob (job : Job) (c : Cluster) (entry : (Nat × Nat) × Nat) : Cluster :=
  let ((worker,gpusRequired),rank) := entry
  { c with
    gpu := fun w => if w = worker then sub32 (c.gpu w) gpusRequired else c.gpu w
    executing := ⟨worker,job.id,rank,gpusRequired⟩ :: c.executing
    wrapped := c.wrapped || decide (c.gpu worker < gpusRequired) }

/-- The workers of `config` start in its order, with their ranks. -/
def startJob (c : Cluster) (job : Job) (config : RunConfig) : Cluster :=
  let c := { c with
    startTime := fun id => if id = job.id then some c.now else c.startTime id
    placed := (job,config) :: c.placed }
  config.zipIdx.foldl (executeJob job) c.checkIfAllJobsStarted

/-- The tail of `execute_job`. -/
def finish (c : Cluster) (e : Execution) : Cluster :=
  let c := { c with
    gpu := fun w => if w = e.worker then u32 (c.gpu w + e.gpusRequired) else c.gpu w
    executing := c.executing.erase e }
  if e.rank = 0 then
    checkIfAllJobsFinished { c with
      finishTime := fun id => if id = e.job then some c.now else c.finishTime id }
  else c

theorem checkIfAllJobsStarted_eq (c : Cluster) : c.checkIfAllJobsStarted =
    { c with allJobsStarted :=
        c.allJobsStarted || (c.allJobsSubmitted && c.jobs.all c.started) } := by
  unfold checkIfAllJobsStarted
  split
  · rename_i all
    simp [all]
  · rename_i some
    rw [Bool.not_eq_true] at some
    simp [some]

theorem checkIfAllJobsFinished_eq (c : Cluster) : c.checkIfAllJobsFinished =
    { c with allJobsFinished :=
        c.allJobsFinished || (c.allJobsStarted && c.jobs.all c.finished) } := by
  unfold checkIfAllJobsFinished
  split
  · rename_i all
    simp [all]
  · rename_i some
    rw [Bool.not_eq_true] at some
    simp [some]

theorem finish_eq (c : Cluster) (e : Execution) : ∃ flag, c.finish e =
    { c with
      gpu := fun w => if w = e.worker then u32 (c.gpu w + e.gpusRequired) else c.gpu w
      executing := c.executing.erase e
      finishTime :=
        if e.rank = 0 then fun id => if id = e.job then some c.now else c.finishTime id
        else c.finishTime
      allJobsFinished := flag } := by
  unfold finish
  dsimp only
  split
  · exact ⟨_,checkIfAllJobsFinished_eq _⟩
  · exact ⟨c.allJobsFinished,rfl⟩

end Cluster

def FirstComeFirstServed.chooseJobToExecuteIn (blocking : Bool) (c : Cluster) :
    List Job → Option Job
  | [] => none
  | job :: rest =>
    if !c.started job then some job
    else if blocking && !c.finished job then none
    else chooseJobToExecuteIn blocking c rest

/-- `FitFirst::choose_job_to_execute_in`: its trial placements are discarded. -/
def FitFirst.chooseJobToExecuteIn (site : Site) (placement : PlacementAlgo) (c : Cluster) :
    List Job → Draws → Option (Option Job × Draws)
  | [],draws => some (none,draws)
  | job :: rest,draws =>
    if !c.started job then do
      let (config,draws) ← placement.placeJobIn site c.gpu job draws
      if config ≠ [] then return (some job,draws)
      else chooseJobToExecuteIn site placement c rest draws
    else chooseJobToExecuteIn site placement c rest draws

/-- The algorithms that `main` selects for `JOB_SCHEDULER`. -/
inductive SchedulingAlgo where
  | firstComeFirstServed (blocking : Bool)
  | fitFirst
  deriving DecidableEq, Repr

def SchedulingAlgo.chooseJobToExecuteIn (site : Site) (placement : PlacementAlgo) (c : Cluster)
    (draws : Draws) : SchedulingAlgo → Option (Option Job × Draws)
  | .firstComeFirstServed blocking =>
    some (FirstComeFirstServed.chooseJobToExecuteIn blocking c c.jobs,draws)
  | .fitFirst => FitFirst.chooseJobToExecuteIn site placement c c.jobs draws

/-- A step resolves the time that passes, the outcomes of sampling, the order in which a run
configuration is iterated and the worker that finishes. -/
inductive ClusterStep where
  | tick (d : Nat)
  | submit
  | schedule (draws : Draws) (order : RunConfig)
  | wake
  | finish (e : Execution)

namespace Cluster

/-- The condition of the loop in `cluster_scheduler`, then its first timeout. -/
def loopHead (c : Cluster) : Cluster :=
  { c with scheduler := if c.allJobsStarted then .ended else .choosing }

/-- One round of `cluster_scheduler` from its first timeout to the next suspension. -/
def schedule (site : Site) (algo : SchedulingAlgo) (placement : PlacementAlgo) (c : Cluster)
    (draws : Draws) (order : RunConfig) : Option Cluster := do
  let (chosen,draws) ← algo.chooseJobToExecuteIn site placement c draws
  match chosen with
  | none => return { c with scheduler := .waiting }
  | some job =>
    let (config,_) ← placement.placeJobIn site c.gpu job draws
    if config = [] then
      return { c with scheduler := if c.numRunningJobs = 0 then .aborted else .waiting }
    else if order.Perm config then return (c.startJob job order).loopHead
    else none

def submit (c : Cluster) : Option Cluster :=
  match c.unsubmitted with
  | [] => none
  | job :: rest =>
    if c.now = c.due then
      some (awaitSubmission { c with jobs := c.jobs ++ [job], unsubmitted := rest })
    else none

def step (site : Site) (algo : SchedulingAlgo) (placement : PlacementAlgo) (l : ClusterStep)
    (c : Cluster) : Option Cluster :=
  if c.scheduler = .aborted then none
  else match l with
    | .tick d =>
      if c.unsubmitted = [] ∨ c.now + d ≤ c.due then some { c with now := c.now + d } else none
    | .submit => c.submit
    | .schedule draws order =>
      if c.scheduler = .choosing then c.schedule site algo placement draws order else none
    | .wake => if c.scheduler = .waiting then some c.loopHead else none
    | .finish e => if e ∈ c.executing then some (c.finish e) else none

end Cluster
end CloudSim
