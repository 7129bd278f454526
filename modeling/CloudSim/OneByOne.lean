import CloudSim.Admission

/-! The blocking scheduler, which is meant to run one job at a time. -/
namespace CloudSim.Cluster
variable {site : Site} {placement : PlacementAlgo} {c d : Cluster} {trace : List Job}

/-- No job has started before a job submitted earlier. -/
def InOrder (c : Cluster) : Prop :=
  c.jobs.Pairwise fun a b => c.started b = true → c.started a = true

/-- The executions all belong to one job. -/
def Exclusive (c : Cluster) : Prop := ∀ e ∈ c.executing, ∀ other ∈ c.executing, e.job = other.job

instance (c : Cluster) : Decidable (Exclusive c) :=
  inferInstanceAs (Decidable (∀ e ∈ c.executing, ∀ other ∈ c.executing, e.job = other.job))

theorem choose_idle (ordered : InOrder c)
    (chosen : FirstComeFirstServed.chooseJobToExecuteIn true c c.jobs = some job) :
    c.numRunningJobs = 0 := by
  obtain ⟨before,after,split,pending,earlier⟩ := FirstComeFirstServed.choose_spec chosen
  unfold InOrder at ordered
  rw [split,List.pairwise_append,List.pairwise_cons] at ordered
  refine List.length_eq_zero_iff.mpr (List.filter_eq_nil_iff.mpr fun other known running => ?_)
  obtain ⟨started,unfinished⟩ := (Bool.and_eq_true ..).mp running
  rw [split] at known
  rcases List.mem_append.mp known with old | later
  · rw [(earlier other old).2 rfl] at unfinished
    cases unfinished
  · rcases List.mem_cons.mp later with rfl | later
    · exact Bool.false_ne_true (pending.symm.trans started)
    · exact Bool.false_ne_true (pending.symm.trans (ordered.2.1.1 other later started))

theorem startJob_ordered (ordered : InOrder c) (distinct : (c.jobs.map Job.id).Nodup)
    (chosen : FirstComeFirstServed.chooseJobToExecuteIn blocking c c.jobs = some job)
    (order : RunConfig) : InOrder (c.startJob job order).loopHead := by
  obtain ⟨before,after,split,pending,earlier⟩ := FirstComeFirstServed.choose_spec chosen
  obtain ⟨gpu,wrapped,same⟩ := startJob_eq c job order
  have started (other : Job) : (c.startJob job order).loopHead.started other =
      (decide (other.id = job.id) || c.started other) := by
    rw [← started_logged c job order]
    simp only [Cluster.started,loopHead,same]
  unfold InOrder at ordered ⊢
  rw [split,List.map_append,List.map_cons,List.nodup_append,List.nodup_cons] at distinct
  rw [split,List.pairwise_append,List.pairwise_cons] at ordered
  have known (old : Job) (member : old ∈ before) :
      (c.startJob job order).loopHead.started old = true := by
    rw [started,(earlier old member).1,Bool.or_true]
  have own : (c.startJob job order).loopHead.started job = true := by simp [started]
  have later (other : Job) (member : other ∈ after) :
      (c.startJob job order).loopHead.started other = false := by
    have apart : other.id ≠ job.id := fun same =>
      distinct.2.1.1 (same ▸ List.mem_map_of_mem member)
    have open' : c.started other = false := by
      by_contra begun
      rw [Bool.not_eq_false] at begun
      exact Bool.false_ne_true (pending.symm.trans (ordered.2.1.1 other member begun))
    simp [started,apart,open']
  have jobs : (c.startJob job order).loopHead.jobs = c.jobs := by
    rw [same]
    rfl
  rw [jobs,split,List.pairwise_append,List.pairwise_cons]
  refine ⟨?_,⟨fun _ _ _ => own,?_⟩,fun old member _ _ _ => known old member⟩
  · exact ordered.1.imp_of_mem fun old _ _ _ => known _ old
  · refine ordered.2.1.2.imp_of_mem fun _ member _ begun => ?_
    rw [later _ member] at begun
    cases begun

/-- A round with a next job to start, the first that has not finished, finds no straggling worker. -/
def Punctual (site : Site) (placement : PlacementAlgo) : ClusterStep → Cluster → Prop
  | .schedule _ _,c => ∀ job ∈ c.jobs.find? (fun job => !c.finished job),
      c.started job = false → placement.Fits site c.gpu job → ¬c.Straggling
  | _,_ => True

instance (l : ClusterStep) (c : Cluster) : Decidable (Punctual site placement l c) :=
  match l with
  | .schedule _ _ => inferInstanceAs (Decidable (∀ job ∈ c.jobs.find? _,_ → _ → ¬_))
  | .tick _ | .submit | .wake | .finish _ => isTrue trivial

theorem choose_next (recorded : Recorded trace c)
    (chosen : FirstComeFirstServed.chooseJobToExecuteIn true c c.jobs = some job) :
    job ∈ c.jobs.find? (fun job => !c.finished job) ∧ c.started job = false := by
  obtain ⟨before,after,split,pending,earlier⟩ := FirstComeFirstServed.choose_spec chosen
  have unfinished : c.finished job = false := by
    by_contra ended
    have begun := recorded.finished job.id (Bool.not_eq_false _ ▸ ended)
    exact Bool.false_ne_true (pending.symm.trans begun)
  refine ⟨List.find?_eq_some_iff_append.mpr ⟨by simp [unfinished],before,after,split,?_⟩,pending⟩
  intro old member
  simp [(earlier old member).2 rfl]

structure OneByOne (trace : List Job) (c : Cluster) : Prop where
  recorded : Recorded trace c
  ordered : InOrder c
  exclusive : Exclusive c

theorem OneByOne.frame (one : OneByOne trace c) (recorded : Recorded trace d)
    (jobs : d.jobs = c.jobs) (startTime : d.startTime = c.startTime)
    (executing : d.executing ⊆ c.executing) : OneByOne trace d := by
  refine ⟨recorded,?_,fun e member other also =>
    one.exclusive e (executing member) other (executing also)⟩
  have ordered := one.ordered
  simp only [InOrder,started] at ordered ⊢
  rwa [jobs,startTime]

theorem OneByOne.start_idle (one : OneByOne trace c) (settled : ¬c.Straggling)
    (chosen : SchedulingAlgo.chooseJobToExecuteIn site placement c draws
      (.firstComeFirstServed true) = some (some job,rest)) : c.executing = [] := by
  obtain ⟨first,_⟩ := Prod.mk.inj (Option.some.inj chosen)
  exact one.recorded.idle (choose_idle one.ordered first) settled

theorem change_oneByOne (one : OneByOne trace c) (distinct : (trace.map Job.id).Nodup)
    (punctual : Punctual site placement l c)
    (change : Change site (.firstComeFirstServed true) placement c l d) : OneByOne trace d := by
  have recorded := change_recorded one.recorded change
  cases change with
  | tick => exact one.frame recorded rfl rfl (List.Subset.refl _)
  | submit next =>
    rename_i job rest
    have fields : (awaitSubmission { c with jobs := c.jobs ++ [job], unsubmitted := rest }).jobs =
          c.jobs ++ [job] ∧
        (awaitSubmission { c with jobs := c.jobs ++ [job], unsubmitted := rest }).startTime =
          c.startTime ∧
        (awaitSubmission { c with jobs := c.jobs ++ [job], unsubmitted := rest }).executing =
          c.executing := by
      cases rest <;> exact ⟨rfl,rfl,rfl⟩
    obtain ⟨jobs,startTime,executing⟩ := fields
    have pending : c.started job = false :=
      one.recorded.unsubmitted_pending distinct (by rw [next]; exact List.mem_cons_self)
    refine ⟨recorded,?_,by rw [Exclusive,executing]; exact one.exclusive⟩
    have ordered := one.ordered
    simp only [InOrder,started,jobs,startTime] at ordered pending ⊢
    refine List.pairwise_append.mpr ⟨ordered,List.pairwise_singleton _ _,fun old _ new member => ?_⟩
    rw [List.mem_singleton.mp member,pending]
    exact fun begun => by cases begun
  | pause => exact one.frame recorded rfl rfl (List.Subset.refl _)
  | reject => exact one.frame recorded rfl rfl (List.Subset.refl _)
  | @start _ job _ _ _ _ choosing chosen placed nonempty =>
    obtain ⟨first,_⟩ := Prod.mk.inj (Option.some.inj chosen)
    obtain ⟨next,pending⟩ := choose_next one.recorded first
    have fits := (PlacementAlgo.placeJobIn_nonempty_iff placed).mp nonempty
    have idle := one.start_idle (punctual job next pending fits) chosen
    have known : (c.jobs.map Job.id).Nodup := by
      rw [← one.recorded.inOrder,List.map_append,List.nodup_append] at distinct
      exact distinct.1
    refine ⟨recorded,startJob_ordered one.ordered known first _,?_⟩
    obtain ⟨gpu,wrapped,same⟩ := startJob_eq c job _
    rw [same,idle]
    intro e member other also
    have alone {order : RunConfig} (e : Execution) (member : e ∈ executions job order ++ []) :
        e.job = job.id := mem_executions (List.append_nil (executions job order) ▸ member)
    exact (alone e member).trans (alone other also).symm
  | wake => exact one.frame recorded rfl rfl (List.Subset.refl _)
  | @finish e member =>
    obtain ⟨flag,same⟩ := finish_eq c e
    rw [same] at recorded ⊢
    exact one.frame recorded rfl rfl List.erase_subset

/-- With the blocking scheduler, in a run whose rounds are punctual, one job at most is executed at
any time. A job starts on an idle cluster exactly if no worker straggles then. -/
theorem one_by_one_exclusive (site : Site) (placement : PlacementAlgo) (trace : List Job)
    (submitAllJobs : Bool) (c : Cluster) (distinct : (trace.map Job.id).Nodup)
    (run : Runs.Run (step site (.firstComeFirstServed true) placement) (Punctual site placement)
      (initial site trace submitAllJobs) c) :
    Exclusive c ∧ ∀ draws order d,
      step site (.firstComeFirstServed true) placement (.schedule draws order) c = some d →
      (∃ job, c.started job = false ∧ d.started job = true) →
      (c.executing = [] ∧ c.gpu = site.gpuCapacity ↔ ¬c.Straggling) := by
  have preserved (l : ClusterStep) (s t : Cluster) (one : OneByOne trace s)
      (punctual : Punctual site placement l s)
      (taken : step site (.firstComeFirstServed true) placement l s = some t) :
      OneByOne trace t := change_oneByOne one distinct punctual (step_change taken)
  have begins : OneByOne trace (initial site trace submitAllJobs) := by
    refine ⟨initial_recorded _ _ _,?_,?_⟩
    · unfold InOrder initial awaitSubmission
      split
      · exact List.pairwise_of_forall fun _ _ begun => by cases begun
      · split <;> exact List.Pairwise.nil
    · unfold Exclusive initial awaitSubmission
      split
      · exact fun _ member => by cases member
      · split <;> exact fun _ member => by cases member
  have one := run.invariant preserved begins
  refine ⟨one.exclusive,fun draws order d taken ⟨job,pending,begun⟩ => ?_⟩
  have same (records : d.startTime = c.startTime) : False := by
    rw [started,records] at begun
    exact Bool.false_ne_true (pending.symm.trans begun)
  cases step_change taken with
  | pause => exact absurd rfl same
  | reject => exact absurd rfl same
  | start choosing chosen =>
    constructor
    · rintro ⟨idle,_⟩ ⟨e,member,_⟩
      rw [idle] at member
      cases member
    · intro settled
      have idle := one.start_idle settled chosen
      exact ⟨idle,(run_recorded run).2.1.idle idle⟩

/-- The second job starts after both workers of the first have finished. -/
theorem one_by_one_exclusive_two_jobs :
    ∃ c d, Runs.Run (step twoRacks (.firstComeFirstServed true) (.yarn true))
        (Punctual twoRacks (.yarn true)) (initial twoRacks [⟨0,6,0⟩,⟨1,3,0⟩] true) c ∧
      Exclusive c ∧
      step twoRacks (.firstComeFirstServed true) (.yarn true) (.schedule [[0]] [(0,3)]) c = some d ∧
      d.started ⟨1,3,0⟩ = true ∧ c.executing = [] ∧ c.gpu = twoRacks.gpuCapacity := by
  have ends : (Runs.exec (step twoRacks (.firstComeFirstServed true) (.yarn true))
      (Punctual twoRacks (.yarn true))
      [.schedule [[1],[2,2,2,2,3,3]] [(3,2),(2,4)],.finish ⟨3,0,0,2⟩,.finish ⟨2,0,1,4⟩]
      (initial twoRacks [⟨0,6,0⟩,⟨1,3,0⟩] true)).map (fun c =>
        ((step twoRacks (.firstComeFirstServed true) (.yarn true) (.schedule [[0]] [(0,3)]) c).map
          fun d => d.started ⟨1,3,0⟩,
        c.started ⟨1,3,0⟩,decide (¬c.Straggling))) =
      some (some true,false,true) := by decide
  obtain ⟨c,run,view⟩ := Runs.exists_run_of_exec ends
  obtain ⟨starts,view⟩ := Prod.mk.inj view
  obtain ⟨pending,settled⟩ := Prod.mk.inj view
  obtain ⟨d,taken,begun⟩ := Option.map_eq_some_iff.mp starts
  obtain ⟨exclusive,idle⟩ := one_by_one_exclusive twoRacks (.yarn true) [⟨0,6,0⟩,⟨1,3,0⟩] true c
    (by decide) run
  exact ⟨c,d,run,exclusive,taken,begun,
    (idle [[0]] [(0,3)] d taken ⟨_,pending,begun⟩).mpr (of_decide_eq_true settled)⟩

/-- The second job starts when only the first worker of the first job has finished. -/
theorem one_by_one_overlaps :
    ∃ c, Runs.Run (step twoRacks (.firstComeFirstServed true) (.yarn true)) Runs.anyStep
      (initial twoRacks [⟨0,6,0⟩,⟨1,3,0⟩] true) c ∧ ¬Exclusive c := by
  have ends : (Runs.exec (step twoRacks (.firstComeFirstServed true) (.yarn true)) Runs.anyStep
      [.schedule [[1],[2,2,2,2,3,3]] [(3,2),(2,4)],.finish ⟨3,0,0,2⟩,.schedule [[0]] [(0,3)]]
      (initial twoRacks [⟨0,6,0⟩,⟨1,3,0⟩] true)).map (fun c => decide (Exclusive c)) =
      some false := by decide
  obtain ⟨c,run,overlap⟩ := Runs.exists_run_of_exec ends
  exact ⟨c,run,of_decide_eq_false overlap⟩

end CloudSim.Cluster
