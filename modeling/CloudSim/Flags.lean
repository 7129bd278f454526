import CloudSim.Conservation
import CloudSim.Lifecycle

/-! The progress flags of a cluster say what the records of its jobs say. -/
namespace CloudSim.Cluster
variable {site : Site} {algo : SchedulingAlgo} {placement : PlacementAlgo} {c d : Cluster}
  {trace : List Job}

def AllStarted (trace : List Job) (c : Cluster) : Prop :=
  trace ≠ [] ∧ ∀ job ∈ trace, c.started job = true

def AllFinished (trace : List Job) (c : Cluster) : Prop :=
  trace ≠ [] ∧ ∀ job ∈ trace, c.finished job = true

/-- The flags of a cluster are up to date after every step. -/
structure Faithful (trace : List Job) (c : Cluster) : Prop where
  started : c.allJobsStarted = true ↔ AllStarted trace c
  finished : c.allJobsFinished = true ↔ AllFinished trace c
  ended : c.scheduler = .ended ↔ c.allJobsStarted = true

theorem Faithful.frame (faithful : Faithful trace c) (startTime : d.startTime = c.startTime)
    (finishTime : d.finishTime = c.finishTime) (started : d.allJobsStarted = c.allJobsStarted)
    (finished : d.allJobsFinished = c.allJobsFinished)
    (ended : d.scheduler = .ended ↔ c.scheduler = .ended) : Faithful trace d := by
  refine ⟨?_,?_,?_⟩
  · rw [started,faithful.started]
    simp only [AllStarted,Cluster.started,startTime]
  · rw [finished,faithful.finished]
    simp only [AllFinished,Cluster.finished,finishTime]
  · rw [ended,started]
    exact faithful.ended

theorem initial_faithful (site : Site) (trace : List Job) (submitAllJobs : Bool) :
    Faithful trace (initial site trace submitAllJobs) := by
  have fields : (initial site trace submitAllJobs).startTime = (fun _ => none) ∧
      (initial site trace submitAllJobs).finishTime = (fun _ => none) ∧
      (initial site trace submitAllJobs).allJobsStarted = false ∧
      (initial site trace submitAllJobs).allJobsFinished = false ∧
      (initial site trace submitAllJobs).scheduler = .choosing := by
    unfold initial awaitSubmission
    split
    · exact ⟨rfl,rfl,rfl,rfl,rfl⟩
    · split <;> exact ⟨rfl,rfl,rfl,rfl,rfl⟩
  obtain ⟨startTime,finishTime,started,finished,scheduler⟩ := fields
  refine ⟨?_,?_,by rw [scheduler,started]; simp⟩
  · rw [started]
    refine ⟨(fun on => by cases on),?_⟩
    rintro ⟨jobs,all⟩
    obtain ⟨job,member⟩ := List.exists_mem_of_ne_nil _ jobs
    simpa [Cluster.started,startTime] using all job member
  · rw [finished]
    refine ⟨(fun on => by cases on),?_⟩
    rintro ⟨jobs,all⟩
    obtain ⟨job,member⟩ := List.exists_mem_of_ne_nil _ jobs
    simpa [Cluster.finished,finishTime] using all job member

/-- Jobs that are still to be submitted have not started: no submitted job has their number. -/
theorem Recorded.unsubmitted_pending (recorded : Recorded trace c)
    (distinct : (trace.map Job.id).Nodup) (member : job ∈ c.unsubmitted) :
    c.started job = false := by
  rw [← recorded.inOrder,List.map_append] at distinct
  by_contra begun
  rw [Bool.not_eq_false] at begun
  obtain ⟨other,known,same⟩ := recorded.started job.id begun
  exact (List.nodup_append.mp distinct).2.2 other.id (List.mem_map_of_mem known) job.id
    (List.mem_map_of_mem member) same

theorem Recorded.jobs_of_started (recorded : Recorded trace c)
    (distinct : (trace.map Job.id).Nodup) (all : ∀ job ∈ trace, c.started job = true) :
    c.unsubmitted = [] ∧ c.jobs = trace := by
  have none : c.unsubmitted = [] := by
    by_contra more
    obtain ⟨job,member⟩ := List.exists_mem_of_ne_nil _ more
    have begun := all job (recorded.inOrder ▸ List.mem_append_right _ member)
    rw [recorded.unsubmitted_pending distinct member] at begun
    cases begun
  have order := recorded.inOrder
  rw [none,List.append_nil] at order
  exact ⟨none,order⟩

theorem Recorded.mem_trace (recorded : Recorded trace c) (known : job ∈ c.jobs) : job ∈ trace :=
  recorded.inOrder ▸ List.mem_append_left _ known

theorem loopHead_faithful (started : c.allJobsStarted = true ↔ AllStarted trace c)
    (finished : c.allJobsFinished = true ↔ AllFinished trace c) : Faithful trace c.loopHead := by
  refine ⟨started,finished,?_⟩
  change (if c.allJobsStarted = true then SchedulerPhase.ended else .choosing) = .ended ↔
    c.allJobsStarted = true
  split <;> simp_all

/-- The start of a job of the trace keeps the flags up to date. -/
theorem startJob_faithful (faithful : Faithful trace c) (recorded : Recorded trace c)
    (distinct : (trace.map Job.id).Nodup) (known : job ∈ c.jobs) (pending : c.started job = false)
    (order : RunConfig) : Faithful trace (c.startJob job order).loopHead := by
  have after := startJob_recorded recorded known order
  obtain ⟨gpu,wrapped,same⟩ := startJob_eq c job order
  have open' : c.allJobsStarted = false := by
    rw [Bool.eq_false_iff]
    intro all
    have begun := (faithful.started.mp all).2 job (recorded.mem_trace known)
    rw [pending] at begun
    cases begun
  have started (other : Job) : (c.startJob job order).started other =
      (c.logged job order).started other := by simp only [Cluster.started,same]
  have checked : (c.startJob job order).allJobsStarted = true ↔
      c.allJobsSubmitted = true ∧ ∀ other ∈ c.jobs, (c.logged job order).started other = true := by
    rw [same,open',Bool.false_or,Bool.and_eq_true,List.all_eq_true]
  refine loopHead_faithful ?_ ?_
  · rw [checked]
    constructor
    · rintro ⟨submitted,all⟩
      have whole := recorded.inOrder
      rw [recorded.submitted.mp submitted,List.append_nil] at whole
      refine ⟨List.ne_nil_of_mem (recorded.mem_trace known),fun other member => ?_⟩
      rw [started]
      exact all other (whole ▸ member)
    · rintro ⟨_,all⟩
      obtain ⟨none,whole⟩ := after.jobs_of_started distinct all
      refine ⟨?_,fun other member => ?_⟩
      · have submitted := after.submitted.mpr none
        rw [same] at submitted
        exact submitted
      · rw [← started]
        exact all other (recorded.mem_trace member)
  · rw [same]
    exact faithful.finished

theorem finish_faithful (faithful : Faithful trace c) (recorded : Recorded trace c)
    (distinct : (trace.map Job.id).Nodup) (member : e ∈ c.executing) :
    Faithful trace (c.finish e) := by
  have after := finish_recorded recorded member
  by_cases leader : e.rank = 0
  case neg =>
    have same : c.finish e = { c with
        gpu := fun w => if w = e.worker then u32 (c.gpu w + e.gpusRequired) else c.gpu w
        executing := c.executing.erase e } := by
      simp only [finish,if_neg leader]
    rw [same]
    exact faithful.frame rfl rfl rfl rfl Iff.rfl
  case pos =>
    obtain ⟨_,same⟩ := finish_eq c e
    have startTime : (c.finish e).startTime = c.startTime := by rw [same]
    have flag : (c.finish e).allJobsStarted = c.allJobsStarted := by rw [same]
    have scheduler : (c.finish e).scheduler = c.scheduler := by rw [same]
    have finished (job : Job) (done : c.finished job = true) : (c.finish e).finished job = true := by
      rw [same]
      simp only [Cluster.finished,if_pos leader] at done ⊢
      split
      · rfl
      · exact done
    have checked : (c.finish e).allJobsFinished = true ↔ c.allJobsFinished = true ∨
        c.allJobsStarted = true ∧ ∀ job ∈ c.jobs, (c.finish e).finished job = true := by
      simp only [finish,if_pos leader,checkIfAllJobsFinished_eq]
      rw [Bool.or_eq_true,Bool.and_eq_true,List.all_eq_true]
      rfl
    refine ⟨?_,?_,by rw [scheduler,flag]; exact faithful.ended⟩
    · rw [flag,faithful.started]
      simp only [AllStarted,Cluster.started,startTime]
    · rw [checked]
      constructor
      · rintro (old | ⟨begun,all⟩)
        · obtain ⟨jobs,all⟩ := faithful.finished.mp old
          exact ⟨jobs,fun job inside => finished job (all job inside)⟩
        · obtain ⟨jobs,starts⟩ := faithful.started.mp begun
          obtain ⟨_,whole⟩ := recorded.jobs_of_started distinct starts
          exact ⟨jobs,fun job inside => all job (whole ▸ inside)⟩
      · rintro ⟨jobs,all⟩
        refine .inr ⟨faithful.started.mpr ⟨jobs,fun job inside => ?_⟩,fun job known =>
          all job (recorded.mem_trace known)⟩
        have begun := after.finished job.id (all job inside)
        rwa [startTime] at begun

theorem change_faithful (faithful : Faithful trace c) (recorded : Recorded trace c)
    (distinct : (trace.map Job.id).Nodup) (change : Change site algo placement c l d) :
    Faithful trace d := by
  cases change with
  | tick => exact faithful.frame rfl rfl rfl rfl Iff.rfl
  | submit next =>
    rename_i job rest
    cases rest <;> exact faithful.frame rfl rfl rfl rfl Iff.rfl
  | pause choosing => exact faithful.frame rfl rfl rfl rfl (by simp [choosing])
  | reject choosing =>
    refine faithful.frame rfl rfl rfl rfl ?_
    rw [choosing]
    dsimp only
    split <;> simp
  | start choosing chosen =>
    obtain ⟨known,pending⟩ := SchedulingAlgo.choose_pending chosen
    exact startJob_faithful faithful recorded distinct known pending _
  | wake => exact loopHead_faithful faithful.started faithful.finished
  | finish member => exact finish_faithful faithful recorded distinct member

/-- The flags and the end of the scheduler's loop in every reachable state, hence after every
step: each is set if and only if every job of the trace has got that far. -/
theorem flags_faithful (site : Site) (algo : SchedulingAlgo) (placement : PlacementAlgo)
    (trace : List Job) (submitAllJobs : Bool) (c : Cluster)
    (distinct : (trace.map Job.id).Nodup)
    (run : Runs.Run (step site algo placement) Runs.anyStep (initial site trace submitAllJobs) c) :
    (c.allJobsStarted = true → c.unsubmitted = [] ∧ c.jobs = trace) ∧
    (c.allJobsStarted = true ↔ trace ≠ [] ∧ ∀ job ∈ trace, c.started job = true) ∧
    (c.scheduler = .ended ↔ c.allJobsStarted = true) ∧
    (c.allJobsFinished = true ↔ trace ≠ [] ∧ ∀ job ∈ trace, c.finished job = true) := by
  have preserved (l : ClusterStep) (s t : Cluster) (inv : Recorded trace s ∧ Faithful trace s)
      (_ : Runs.anyStep l s) (taken : step site algo placement l s = some t) :
      Recorded trace t ∧ Faithful trace t :=
    have change := step_change taken
    ⟨change_recorded inv.1 change,change_faithful inv.2 inv.1 distinct change⟩
  obtain ⟨recorded,faithful⟩ := run.invariant preserved
    ⟨initial_recorded site trace submitAllJobs,initial_faithful site trace submitAllJobs⟩
  exact ⟨fun all => recorded.jobs_of_started distinct (faithful.started.mp all).2,
    faithful.started,faithful.ended,faithful.finished⟩

def twoSubmissions : List ClusterStep :=
  [.submit,.schedule [[0],[0,0,0,1,1,1],[1],[2,2,2,2,3,3]] [(3,2),(2,4)],.schedule [] [],.tick 5,
    .submit,.wake,.schedule [[1],[0]] [(0,3)],.finish ⟨3,0,0,2⟩,.finish ⟨2,0,1,4⟩,.finish ⟨0,1,0,3⟩]

theorem flags_faithful_two_submissions :
    ∃ c, Runs.Run (step twoRacks .fitFirst (.yarn true)) Runs.anyStep
        (initial twoRacks [⟨0,6,0⟩,⟨1,3,5⟩] false) c ∧
      c.scheduler = .ended ∧ c.allJobsFinished = true ∧ c.unsubmitted = [] ∧
      ∀ job ∈ [⟨0,6,0⟩,⟨1,3,5⟩], c.finished job = true := by
  have ends : (Runs.exec (step twoRacks .fitFirst (.yarn true)) Runs.anyStep twoSubmissions
      (initial twoRacks [⟨0,6,0⟩,⟨1,3,5⟩] false)).map (fun c => (c.scheduler,c.allJobsFinished)) =
      some (.ended,true) := by decide
  obtain ⟨c,run,view⟩ := Runs.exists_run_of_exec ends
  obtain ⟨ended,finished⟩ := Prod.mk.inj view
  obtain ⟨submitted,_,stops,done⟩ := flags_faithful twoRacks .fitFirst (.yarn true)
    [⟨0,6,0⟩,⟨1,3,5⟩] false c (by decide) run
  exact ⟨c,run,ended,finished,(submitted (stops.mp ended)).1,(done.mp finished).2⟩

end CloudSim.Cluster
