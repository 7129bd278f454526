import CloudSim.Cluster

/-! What one step of a cluster can do, and what the records of submission, start and finish say
about each other. -/
namespace CloudSim

theorem FirstComeFirstServed.choose_spec {blocking : Bool} {c : Cluster} {jobs : List Job}
    (chosen : chooseJobToExecuteIn blocking c jobs = some job) :
    ∃ before after, jobs = before ++ job :: after ∧ c.started job = false ∧
      ∀ old ∈ before, c.started old = true ∧ (blocking = true → c.finished old = true) := by
  induction jobs with
  | nil => cases chosen
  | cons first rest ih =>
    simp only [chooseJobToExecuteIn] at chosen
    split at chosen
    · rename_i pending
      cases chosen
      exact ⟨[],rest,rfl,by simpa using pending,fun _ member => by cases member⟩
    · rename_i started
      split at chosen
      · cases chosen
      · rename_i passed
        obtain ⟨before,after,rfl,pending,earlier⟩ := ih chosen
        refine ⟨first :: before,after,rfl,pending,fun old member => ?_⟩
        rcases List.mem_cons.mp member with rfl | later
        · exact ⟨by simpa using started,fun on => by simpa [on] using passed⟩
        · exact earlier old later

theorem FitFirst.choose_spec {site : Site} {placement : PlacementAlgo} {c : Cluster}
    {jobs : List Job} {draws rest : Draws}
    (chosen : chooseJobToExecuteIn site placement c jobs draws = some (some job,rest)) :
    job ∈ jobs ∧ c.started job = false := by
  induction jobs generalizing draws with
  | nil => cases chosen
  | cons first later ih =>
    have skip {draws : Draws}
        (chosen : chooseJobToExecuteIn site placement c later draws = some (some job,rest)) :
        job ∈ first :: later ∧ c.started job = false :=
      ⟨List.mem_cons_of_mem _ (ih chosen).1,(ih chosen).2⟩
    simp only [chooseJobToExecuteIn] at chosen
    split at chosen
    · rename_i pending
      obtain ⟨⟨config,others⟩,_,chosen⟩ := Option.bind_eq_some_iff.mp chosen
      dsimp only at chosen
      split at chosen
      · cases chosen
        exact ⟨List.mem_cons_self,by simpa using pending⟩
      · exact skip chosen
    · exact skip chosen

theorem SchedulingAlgo.choose_pending {algo : SchedulingAlgo} {site : Site}
    {placement : PlacementAlgo} {c : Cluster} {draws rest : Draws}
    (chosen : algo.chooseJobToExecuteIn site placement c draws = some (some job,rest)) :
    job ∈ c.jobs ∧ c.started job = false := by
  cases algo with
  | firstComeFirstServed blocking =>
    obtain ⟨first,_⟩ := Prod.mk.inj (Option.some.inj chosen)
    obtain ⟨before,after,split,pending,_⟩ := FirstComeFirstServed.choose_spec first
    exact ⟨by rw [split]; simp,pending⟩
  | fitFirst => exact FitFirst.choose_spec chosen

namespace Cluster

def executions (job : Job) (order : RunConfig) : List Execution :=
  (order.zipIdx.map fun entry => ⟨entry.1.1,job.id,entry.2,entry.1.2⟩).reverse

/-- Every way through `step`. -/
inductive Change (site : Site) (algo : SchedulingAlgo) (placement : PlacementAlgo) (c : Cluster) :
    ClusterStep → Cluster → Prop where
  | tick : Change site algo placement c (.tick d) { c with now := c.now + d }
  | submit (next : c.unsubmitted = job :: rest) :
    Change site algo placement c .submit
      (awaitSubmission { c with jobs := c.jobs ++ [job], unsubmitted := rest })
  | pause (choosing : c.scheduler = .choosing)
    (chosen : algo.chooseJobToExecuteIn site placement c draws = some (none,rest)) :
    Change site algo placement c (.schedule draws order) { c with scheduler := .waiting }
  | reject (choosing : c.scheduler = .choosing)
    (chosen : algo.chooseJobToExecuteIn site placement c draws = some (some job,rest))
    (placed : placement.placeJobIn site c.gpu job rest = some ([],last)) :
    Change site algo placement c (.schedule draws order)
      { c with scheduler := if c.numRunningJobs = 0 then .aborted else .waiting }
  | start (choosing : c.scheduler = .choosing)
    (chosen : algo.chooseJobToExecuteIn site placement c draws = some (some job,rest))
    (placed : placement.placeJobIn site c.gpu job rest = some (config,last))
    (nonempty : config ≠ []) (iterated : order.Perm config) :
    Change site algo placement c (.schedule draws order) (c.startJob job order).loopHead
  | wake (waiting : c.scheduler = .waiting) : Change site algo placement c .wake c.loopHead
  | finish (member : e ∈ c.executing) : Change site algo placement c (.finish e) (c.finish e)

variable {site : Site} {algo : SchedulingAlgo} {placement : PlacementAlgo} {c d : Cluster}

theorem schedule_change (choosing : c.scheduler = .choosing)
    (taken : c.schedule site algo placement draws order = some d) :
    Change site algo placement c (.schedule draws order) d := by
  obtain ⟨⟨chosen,rest⟩,picked,taken⟩ := Option.bind_eq_some_iff.mp taken
  cases chosen with
  | none =>
    cases taken
    exact .pause choosing picked
  | some job =>
    obtain ⟨⟨config,last⟩,placed,taken⟩ := Option.bind_eq_some_iff.mp taken
    dsimp only at taken
    split at taken
    · rename_i empty
      subst empty
      cases taken
      exact .reject choosing picked placed
    · rename_i nonempty
      split at taken
      · rename_i iterated
        cases taken
        exact .start choosing picked placed nonempty iterated
      · cases taken

theorem step_change (taken : step site algo placement l c = some d) :
    Change site algo placement c l d := by
  unfold step at taken
  split at taken
  · cases taken
  · cases l with
    | tick =>
      dsimp only at taken
      split at taken <;> cases taken
      exact .tick
    | submit =>
      simp only [submit] at taken
      split at taken
      · cases taken
      · rename_i next
        split at taken <;> cases taken
        exact .submit next
    | schedule =>
      dsimp only at taken
      split at taken
      · rename_i choosing
        exact schedule_change choosing taken
      · cases taken
    | wake =>
      dsimp only at taken
      split at taken <;> cases taken
      exact .wake ‹_›
    | finish e =>
      dsimp only at taken
      split at taken
      · rename_i member; cases taken; exact .finish member
      · cases taken

theorem foldl_executeJob (job : Job) (entries : List ((Nat × Nat) × Nat)) (c : Cluster) :
    ∃ gpu wrapped, entries.foldl (executeJob job) c =
      { c with
        gpu := gpu
        wrapped := wrapped
        executing := (entries.map fun entry =>
          (⟨entry.1.1,job.id,entry.2,entry.1.2⟩ : Execution)).reverse ++ c.executing } := by
  induction entries generalizing c with
  | nil => exact ⟨c.gpu,c.wrapped,rfl⟩
  | cons entry rest ih =>
    obtain ⟨gpu,wrapped,same⟩ := ih (executeJob job c entry)
    refine ⟨gpu,wrapped,?_⟩
    rw [List.foldl_cons,same]
    simp [executeJob]

def logged (c : Cluster) (job : Job) (order : RunConfig) : Cluster :=
  { c with
    startTime := fun id => if id = job.id then some c.now else c.startTime id
    placed := (job,order) :: c.placed }

theorem startJob_eq (c : Cluster) (job : Job) (order : RunConfig) :
    ∃ gpu wrapped, c.startJob job order =
      { c.logged job order with
        allJobsStarted := c.allJobsStarted ||
          (c.allJobsSubmitted && c.jobs.all (c.logged job order).started)
        gpu := gpu
        wrapped := wrapped
        executing := executions job order ++ c.executing } := by
  obtain ⟨gpu,wrapped,same⟩ :=
    foldl_executeJob job order.zipIdx (c.logged job order).checkIfAllJobsStarted
  refine ⟨gpu,wrapped,?_⟩
  change order.zipIdx.foldl (executeJob job) (c.logged job order).checkIfAllJobsStarted = _
  rw [same,checkIfAllJobsStarted_eq]
  rfl

theorem started_logged (c : Cluster) (job : Job) (order : RunConfig) (other : Job) :
    (c.logged job order).started other = (decide (other.id = job.id) || c.started other) := by
  by_cases same : other.id = job.id <;> simp [started,logged,same]

/-- Jobs are submitted in the order of the trace, start after their submission and finish after
their start. -/
structure Recorded (trace : List Job) (c : Cluster) : Prop where
  inOrder : c.jobs ++ c.unsubmitted = trace
  submitted : c.allJobsSubmitted = true ↔ c.unsubmitted = []
  started : ∀ id, (c.startTime id).isSome → ∃ job ∈ c.jobs, job.id = id
  finished : ∀ id, (c.finishTime id).isSome → (c.startTime id).isSome
  executing : ∀ e ∈ c.executing, (c.startTime e.job).isSome

theorem initial_recorded (site : Site) (jobs : List Job) (submitAllJobs : Bool) :
    Recorded jobs (initial site jobs submitAllJobs) := by
  unfold initial awaitSubmission
  split
  · refine ⟨List.append_nil jobs,by simp,?_,?_,?_⟩ <;> simp
  · cases jobs with
    | nil => refine ⟨rfl,by simp,?_,?_,?_⟩ <;> simp
    | cons => refine ⟨rfl,by simp,?_,?_,?_⟩ <;> simp

theorem Recorded.frame (recorded : Recorded trace c) (jobs : d.jobs = c.jobs)
    (unsubmitted : d.unsubmitted = c.unsubmitted)
    (submitted : d.allJobsSubmitted = c.allJobsSubmitted) (startTime : d.startTime = c.startTime)
    (finishTime : d.finishTime = c.finishTime) (executing : d.executing = c.executing) :
    Recorded trace d := by
  refine ⟨?_,?_,?_,?_,?_⟩
  · rw [jobs,unsubmitted]; exact recorded.inOrder
  · rw [submitted,unsubmitted]; exact recorded.submitted
  · rw [startTime,jobs]; exact recorded.started
  · rw [finishTime,startTime]; exact recorded.finished
  · rw [executing,startTime]; exact recorded.executing

theorem mem_executions (member : e ∈ executions job order) : e.job = job.id := by
  obtain ⟨entry,_,rfl⟩ := List.mem_map.mp (List.mem_reverse.mp member)
  rfl

theorem startJob_recorded (recorded : Recorded trace c) (known : job ∈ c.jobs)
    (order : RunConfig) : Recorded trace (c.startJob job order) := by
  have later (id : Nat) (begun : (c.startTime id).isSome) :
      ((c.logged job order).startTime id).isSome := by
    simp only [logged]
    split
    · rfl
    · exact begun
  have records : Recorded trace (c.logged job order) := by
    refine ⟨recorded.inOrder,recorded.submitted,fun id begun => ?_,
      fun id done => later id (recorded.finished id done),
      fun e member => later e.job (recorded.executing e member)⟩
    simp only [logged] at begun
    split at begun
    · rename_i same; exact ⟨job,known,same.symm⟩
    · exact recorded.started id begun
  obtain ⟨gpu,wrapped,same⟩ := startJob_eq c job order
  rw [same]
  refine ⟨records.inOrder,records.submitted,records.started,records.finished,fun e member => ?_⟩
  rcases List.mem_append.mp member with new | old
  · rw [mem_executions new]; simp [logged]
  · exact later e.job (recorded.executing e old)

theorem finish_recorded (recorded : Recorded trace c) (member : e ∈ c.executing) :
    Recorded trace (c.finish e) := by
  obtain ⟨flag,same⟩ := finish_eq c e
  rw [same]
  refine ⟨recorded.inOrder,recorded.submitted,recorded.started,fun id done => ?_,
    fun other kept => recorded.executing other (List.mem_of_mem_erase kept)⟩
  dsimp only at done
  split at done
  · dsimp only at done
    split at done
    · rename_i own
      exact own ▸ recorded.executing e member
    · exact recorded.finished id done
  · exact recorded.finished id done

theorem change_recorded (recorded : Recorded trace c) (change : Change site algo placement c l d) :
    Recorded trace d := by
  cases change with
  | tick => exact recorded.frame rfl rfl rfl rfl rfl rfl
  | submit next =>
    rename_i job rest
    have shifted : (c.jobs ++ [job]) ++ rest = trace := by
      rw [← recorded.inOrder,next,List.append_assoc,List.singleton_append]
    have started (id : Nat) (begun : (c.startTime id).isSome) :
        ∃ old ∈ c.jobs ++ [job], old.id = id := by
      obtain ⟨old,known,same⟩ := recorded.started id begun
      exact ⟨old,List.mem_append_left _ known,same⟩
    have open' : c.allJobsSubmitted = false := by
      rw [Bool.eq_false_iff]
      intro all
      rw [recorded.submitted.mp all] at next
      cases next
    cases rest with
    | nil => exact ⟨shifted,by simp [awaitSubmission],started,recorded.finished,recorded.executing⟩
    | cons => exact ⟨shifted,by simp [awaitSubmission,open'],started,recorded.finished,
        recorded.executing⟩
  | pause => exact recorded.frame rfl rfl rfl rfl rfl rfl
  | reject => exact recorded.frame rfl rfl rfl rfl rfl rfl
  | start choosing chosen placed nonempty iterated =>
    exact (startJob_recorded recorded (SchedulingAlgo.choose_pending chosen).1 _).frame
      rfl rfl rfl rfl rfl rfl
  | wake => exact recorded.frame rfl rfl rfl rfl rfl rfl
  | finish member => exact finish_recorded recorded member

end Cluster
end CloudSim
