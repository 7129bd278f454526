import CloudSim.OneByOne

/-! Submission in the order of the submit times, and first come, first served from there to the
starts, whatever the placement returns. -/
namespace CloudSim

/-- What `main` hands to the broker: the jobs of the file, sorted by their submit times. The sort
leaves the order of equal times open. -/
structure Sorted (csv trace : List Job) : Prop where
  same : trace.Perm csv
  ascending : trace.Pairwise fun a b => a.submitTime ≤ b.submitTime

namespace Cluster

/-- A round of `cluster_scheduler` in which `place_job_in` returns `config`. -/
def scheduleFirst (blocking : Bool) (c : Cluster) (config : RunConfig) : Cluster :=
  match FirstComeFirstServed.chooseJobToExecuteIn blocking c c.jobs with
  | none => { c with scheduler := .waiting }
  | some job =>
    if config = [] then
      { c with scheduler := if c.numRunningJobs = 0 then .aborted else .waiting }
    else (c.startJob job config).loopHead

/-- `step` of the scheduler `firstComeFirstServed`, for any placement. -/
def stepFirst (blocking : Bool) (l : ClusterStep) (c : Cluster) : Option Cluster :=
  if c.scheduler = .aborted then none
  else match l with
    | .tick d =>
      if c.unsubmitted = [] ∨ c.now + d ≤ c.due then some { c with now := c.now + d } else none
    | .submit => c.submit
    | .schedule _ config =>
      if c.scheduler = .choosing then some (c.scheduleFirst blocking config) else none
    | .wake => if c.scheduler = .waiting then some c.loopHead else none
    | .finish e => if e ∈ c.executing then some (c.finish e) else none

/-- Every way through `stepFirst`. -/
inductive Move (blocking : Bool) (c : Cluster) : Cluster → Prop where
  | tick (early : c.unsubmitted = [] ∨ c.now + d ≤ c.due) :
    Move blocking c { c with now := c.now + d }
  | submit (next : c.unsubmitted = job :: rest) (due : c.now = c.due) :
    Move blocking c (awaitSubmission { c with jobs := c.jobs ++ [job], unsubmitted := rest })
  | pause (phase : SchedulerPhase) : Move blocking c { c with scheduler := phase }
  | start (chosen : FirstComeFirstServed.chooseJobToExecuteIn blocking c c.jobs = some job)
    (config : RunConfig) : Move blocking c (c.startJob job config).loopHead
  | finish (member : e ∈ c.executing) : Move blocking c (c.finish e)

variable {blocking : Bool} {c d : Cluster} {csv trace : List Job}

theorem stepFirst_move (taken : stepFirst blocking l c = some d) : Move blocking c d := by
  simp only [stepFirst,Option.ite_none_left_eq_some] at taken
  obtain ⟨_,taken⟩ := taken
  cases l with
  | tick =>
    simp only [Option.ite_none_right_eq_some,Option.some.injEq] at taken
    obtain ⟨early,rfl⟩ := taken
    exact .tick early
  | submit =>
    simp only [submit] at taken
    split at taken
    · cases taken
    · rename_i next
      simp only [Option.ite_none_right_eq_some,Option.some.injEq] at taken
      obtain ⟨due,rfl⟩ := taken
      exact .submit next due
  | schedule _ config =>
    simp only [Option.ite_none_right_eq_some,Option.some.injEq] at taken
    obtain ⟨_,rfl⟩ := taken
    unfold scheduleFirst
    split
    · exact .pause _
    · rename_i chosen
      split
      · exact .pause _
      · exact .start chosen config
  | wake =>
    simp only [Option.ite_none_right_eq_some,Option.some.injEq] at taken
    obtain ⟨_,rfl⟩ := taken
    exact .pause _
  | finish e =>
    simp only [Option.ite_none_right_eq_some,Option.some.injEq] at taken
    obtain ⟨member,rfl⟩ := taken
    exact .finish member

/-- The placements of `PlacementAlgo` are among those. -/
theorem stepFirst_of_step {site : Site} {placement : PlacementAlgo}
    (taken : step site (.firstComeFirstServed blocking) placement l c = some d) :
    ∃ l, stepFirst blocking l c = some d := by
  unfold step at taken
  split at taken
  · cases taken
  · rename_i running
    cases l with
    | tick n => exact ⟨.tick n,by simpa [stepFirst,running] using taken⟩
    | submit => exact ⟨.submit,by simpa [stepFirst,running] using taken⟩
    | wake => exact ⟨.wake,by simpa [stepFirst,running] using taken⟩
    | finish e => exact ⟨.finish e,by simpa [stepFirst,running] using taken⟩
    | schedule draws order =>
      dsimp only at taken
      split at taken
      case isFalse => cases taken
      rename_i choosing
      cases schedule_change choosing taken with
      | pause _ chosen =>
        obtain ⟨first,_⟩ := Prod.mk.inj (Option.some.inj chosen)
        exact ⟨.schedule [] [],by simp [stepFirst,choosing,scheduleFirst,first]⟩
      | reject _ chosen placed =>
        obtain ⟨first,_⟩ := Prod.mk.inj (Option.some.inj chosen)
        exact ⟨.schedule [] [],by simp [stepFirst,choosing,scheduleFirst,first]⟩
      | start _ chosen placed nonempty iterated =>
        obtain ⟨first,_⟩ := Prod.mk.inj (Option.some.inj chosen)
        have some : order ≠ [] := fun empty => nonempty (by simpa [empty] using iterated)
        exact ⟨.schedule [] order,by simp [stepFirst,choosing,scheduleFirst,first,some]⟩

theorem run_stepFirst {site : Site} {placement : PlacementAlgo} {ok : ClusterStep → Cluster → Prop}
    (run : Runs.Run (step site (.firstComeFirstServed blocking) placement) ok s c) :
    Runs.Run (stepFirst blocking) Runs.anyStep s c := by
  induction run with
  | nil => exact .nil
  | snoc _ _ taken ih =>
    obtain ⟨l,same⟩ := stepFirst_of_step taken
    exact .snoc ih trivial same

/-- The broker waits for the next job of the trace until its submit time, and jobs start in the
order of submission. -/
structure Timely (trace : List Job) (c : Cluster) : Prop where
  inOrder : c.jobs ++ c.unsubmitted = trace
  known : ∀ id, (c.startTime id).isSome → ∃ job ∈ c.jobs, job.id = id
  awaited : ∀ job rest, c.unsubmitted = job :: rest → c.due = job.submitTime
  early : ∀ job ∈ c.unsubmitted, c.now ≤ job.submitTime
  entered : ∀ job ∈ c.jobs, job.submitTime ≤ c.now
  begun : ∀ job ∈ c.jobs, ∀ time, c.startTime job.id = some time → job.submitTime ≤ time
  ordered : InOrder c

theorem Timely.frame (timely : Timely trace c) (jobs : d.jobs = c.jobs)
    (unsubmitted : d.unsubmitted = c.unsubmitted) (due : d.due = c.due) (now : d.now = c.now)
    (startTime : d.startTime = c.startTime) : Timely trace d := by
  have started : d.started = c.started := by
    funext job
    rw [Cluster.started,startTime]
    rfl
  constructor
  case inOrder => rw [jobs,unsubmitted]; exact timely.inOrder
  case known => rw [jobs,startTime]; exact timely.known
  case awaited => rw [unsubmitted,due]; exact timely.awaited
  case early => rw [unsubmitted,now]; exact timely.early
  case entered => rw [jobs,now]; exact timely.entered
  case begun => rw [jobs,startTime]; exact timely.begun
  case ordered => rw [InOrder,jobs,started]; exact timely.ordered

section
variable (ascending : trace.Pairwise fun a b => a.submitTime ≤ b.submitTime)
  (fits : ∀ job ∈ trace, job.submitTime < 2^64)
include ascending

theorem Timely.behind (timely : Timely trace c) (next : c.unsubmitted = job :: rest) :
    ∀ later ∈ rest, job.submitTime ≤ later.submitTime := by
  have order := timely.inOrder
  rw [next] at order
  rw [← order,List.pairwise_append,List.pairwise_cons] at ascending
  exact ascending.2.1.1

theorem Timely.tick (timely : Timely trace c)
    (limit : c.unsubmitted = [] ∨ c.now + n ≤ c.due) :
    Timely trace { c with now := c.now + n } := by
  refine ⟨timely.inOrder,timely.known,timely.awaited,fun job member => ?_,fun job member => ?_,
    timely.begun,timely.ordered⟩
  · rcases limit with done | limit
    · simp [done] at member
    · cases next : c.unsubmitted with
      | nil => simp [next] at member
      | cons first rest =>
        rw [timely.awaited first rest next] at limit
        rw [next] at member
        rcases List.mem_cons.mp member with rfl | later
        · exact limit
        · exact limit.trans (timely.behind ascending next job later)
  · exact (timely.entered job member).trans (Nat.le_add_right _ _)

include fits

/-- The next subtraction is from a later time, since the jobs are sorted. -/
theorem Timely.submit (timely : Timely trace c) (distinct : (trace.map Job.id).Nodup)
    (next : c.unsubmitted = job :: rest) (due : c.now = c.due) :
    Timely trace (awaitSubmission { c with jobs := c.jobs ++ [job], unsubmitted := rest }) := by
  have now : c.now = job.submitTime := due.trans (timely.awaited job rest next)
  have later := timely.behind ascending next
  have order := timely.inOrder
  have inside : rest ⊆ trace := by
    rw [← order,next]
    exact fun x member => List.mem_append_right _ (List.mem_cons_of_mem _ member)
  have fresh : c.startTime job.id = none := by
    by_contra begun
    obtain ⟨old,known,same⟩ := timely.known job.id (Option.isSome_iff_ne_none.mpr begun)
    rw [← order,next,List.map_append,List.map_cons,List.nodup_append] at distinct
    exact distinct.2.2 old.id (List.mem_map_of_mem known) job.id List.mem_cons_self same
  have moved : Timely trace { c with
      jobs := c.jobs ++ [job], unsubmitted := rest
      due := (rest.head?.map Job.submitTime).getD c.due } := by
    constructor
    case inOrder => rw [← order,next,List.append_assoc,List.singleton_append]
    case known =>
      intro id begun
      obtain ⟨old,known,same⟩ := timely.known id begun
      exact ⟨old,List.mem_append_left _ known,same⟩
    case awaited =>
      intro following tail same
      dsimp only at same ⊢
      simp [same]
    case early => exact fun following member => now.le.trans (later following member)
    case entered =>
      intro old member
      rcases List.mem_append.mp member with before | new
      · exact timely.entered old before
      · rw [List.mem_singleton.mp new]
        exact now.ge
    case begun =>
      intro old member time started
      rcases List.mem_append.mp member with before | new
      · exact timely.begun old before time started
      · rw [List.mem_singleton.mp new] at started
        cases fresh.symm.trans started
    case ordered =>
      refine List.pairwise_append.mpr ⟨timely.ordered,List.pairwise_singleton _ _,?_⟩
      intro old _ new member begun
      rw [List.mem_singleton.mp member,Cluster.started] at begun
      exact absurd begun (by simp [fresh])
  cases rest with
  | nil => exact moved.frame rfl rfl rfl rfl rfl
  | cons following rest =>
    refine moved.frame rfl rfl ?_ rfl rfl
    have small := fits following (inside List.mem_cons_self)
    have after := now.le.trans (later following List.mem_cons_self)
    change c.now + sub64 following.submitTime c.now = following.submitTime
    rw [sub64_of_le after small]
    omega

end

theorem Timely.start (timely : Timely trace c) (distinct : (trace.map Job.id).Nodup)
    (chosen : FirstComeFirstServed.chooseJobToExecuteIn blocking c c.jobs = some job)
    (config : RunConfig) : Timely trace (c.startJob job config).loopHead := by
  obtain ⟨gpu,wrapped,same⟩ := startJob_eq c job config
  have pending : job ∈ c.jobs := by
    obtain ⟨before,after,split,_⟩ := FirstComeFirstServed.choose_spec chosen
    rw [split]
    simp
  have ids : (c.jobs.map Job.id).Nodup := by
    rw [← timely.inOrder,List.map_append] at distinct
    exact (List.nodup_append.mp distinct).1
  have ordered := startJob_ordered timely.ordered ids chosen config
  rw [same] at ordered ⊢
  constructor
  case inOrder => exact timely.inOrder
  case awaited => exact timely.awaited
  case early => exact timely.early
  case entered => exact timely.entered
  case ordered => exact ordered
  case known =>
    intro id begun
    simp only [loopHead,Cluster.logged] at begun
    split at begun
    · rename_i own
      exact ⟨job,pending,own.symm⟩
    · exact timely.known id begun
  case begun =>
    intro old member time begun
    simp only [loopHead,Cluster.logged] at begun
    split at begun
    · cases begun
      exact timely.entered old member
    · exact timely.begun old member time begun

theorem initial_timely (site : Site) (trace : List Job) (fits : ∀ job ∈ trace, job.submitTime < 2^64) :
    Timely trace (initial site trace false) := by
  cases trace with
  | nil =>
    refine ⟨rfl,?_,?_,?_,?_,?_,.nil⟩ <;> simp [initial,awaitSubmission]
  | cons job rest =>
    refine ⟨rfl,?_,fun first later same => ?_,?_,?_,?_,.nil⟩
    case refine_2 =>
      cases same
      change 0 + sub64 job.submitTime 0 = job.submitTime
      rw [sub64_of_le (Nat.zero_le _) (fits job List.mem_cons_self)]
      omega
    all_goals simp [initial,awaitSubmission]

theorem move_timely (timely : Timely trace c)
    (ascending : trace.Pairwise fun a b => a.submitTime ≤ b.submitTime)
    (fits : ∀ job ∈ trace, job.submitTime < 2^64) (distinct : (trace.map Job.id).Nodup)
    (move : Move blocking c d) : Timely trace d := by
  cases move with
  | tick early => exact timely.tick ascending early
  | submit next due => exact timely.submit ascending fits distinct next due
  | pause => exact timely.frame rfl rfl rfl rfl rfl
  | start chosen config => exact timely.start distinct chosen config
  | finish =>
    obtain ⟨flag,same⟩ := finish_eq c _
    rw [same]
    exact timely.frame rfl rfl rfl rfl rfl

theorem filter_prefix {p : A → Bool} {l : List A}
    (ordered : l.Pairwise fun a b => p b = true → p a = true) : l.filter p <+: l := by
  induction l with
  | nil => exact List.prefix_rfl
  | cons a rest ih =>
    obtain ⟨after,ordered⟩ := List.pairwise_cons.mp ordered
    by_cases held : p a = true
    · simpa [held] using ih ordered
    · have none : rest.filter p = [] :=
        List.filter_eq_nil_iff.mpr fun b member begun => held (after b member begun)
      simp [held,none]

/-- A step submits the job that the broker waits for, at its submit time, or no job. -/
theorem move_submits (timely : Timely trace c) (move : Move blocking c d) :
    d.jobs = c.jobs ∨ ∃ job, d.jobs = c.jobs ++ [job] ∧ d.now = job.submitTime := by
  cases move with
  | tick => exact Or.inl rfl
  | pause => exact Or.inl rfl
  | start chosen config =>
    obtain ⟨gpu,wrapped,same⟩ := startJob_eq c _ config
    rw [same]
    exact Or.inl rfl
  | finish =>
    obtain ⟨flag,same⟩ := finish_eq c _
    rw [same]
    exact Or.inl rfl
  | submit next due =>
    rename_i job rest
    refine Or.inr ⟨job,?_,?_⟩
    · cases rest <;> rfl
    · cases rest <;> exact due.trans (timely.awaited job _ next)

/-- Submission and starts in the order of the sorted trace. -/
structure ServedInOrder (blocking : Bool) (csv : List Job) (c : Cluster) : Prop where
  /-- What the broker subtracts is never the later time, so it wakes at the submit time. -/
  subtraction : ∀ job rest, c.unsubmitted = job :: rest →
    c.now ≤ job.submitTime ∧ c.due = job.submitTime
  submitted : ∀ l d, stepFirst blocking l c = some d →
    d.jobs = c.jobs ∨ ∃ job, d.jobs = c.jobs ++ [job] ∧ d.now = job.submitTime
  complete : ∀ job ∈ csv, job.submitTime < c.now → job ∈ c.jobs
  started : c.jobs.filter c.started <+: c.jobs
  begun : ∀ job ∈ c.jobs, ∀ time, c.startTime job.id = some time → job.submitTime ≤ time

theorem jobs_served_in_order (site : Site) (blocking : Bool) (csv trace : List Job) (c : Cluster)
    (sorted : Sorted csv trace) (distinct : (csv.map Job.id).Nodup)
    (fits : ∀ job ∈ csv, job.submitTime < 2^64)
    (run : Runs.Run (stepFirst blocking) Runs.anyStep (initial site trace false) c) :
    ServedInOrder blocking csv c := by
  have small (job : Job) (member : job ∈ trace) : job.submitTime < 2^64 :=
    fits job (sorted.same.mem_iff.mp member)
  have ids : (trace.map Job.id).Nodup := (sorted.same.map Job.id).nodup_iff.mpr distinct
  have kept (l : ClusterStep) (s t : Cluster) (timely : Timely trace s) (_ : Runs.anyStep l s)
      (taken : stepFirst blocking l s = some t) : Timely trace t :=
    move_timely timely sorted.ascending small ids (stepFirst_move taken)
  have timely := run.invariant kept (initial_timely site trace small)
  refine ⟨fun job rest next => ⟨?_,timely.awaited job rest next⟩,
    fun l d taken => move_submits timely (stepFirst_move taken),fun job member past => ?_,
    filter_prefix timely.ordered,timely.begun⟩
  · exact timely.early job (next ▸ List.mem_cons_self)
  · have listed := sorted.same.mem_iff.mpr member
    rw [← timely.inOrder] at listed
    rcases List.mem_append.mp listed with entered | waiting
    · exact entered
    · exact absurd (timely.early job waiting) (Nat.not_le.mpr past)

/-- The file lists the later job first. -/
theorem jobs_served_in_order_two_jobs : ∃ c, c.jobs = [⟨1,4,3⟩,⟨0,4,7⟩] ∧
    ServedInOrder false [⟨0,4,7⟩,⟨1,4,3⟩] c := by
  have ends : (Runs.exec (stepFirst false) Runs.anyStep
      [.tick 3,.submit,.schedule [] [(0,4)],.tick 4,.submit]
      (initial twoRacks [⟨1,4,3⟩,⟨0,4,7⟩] false)).map Cluster.jobs =
      some [⟨1,4,3⟩,⟨0,4,7⟩] := by decide
  obtain ⟨c,run,jobs⟩ := Runs.exists_run_of_exec ends
  exact ⟨c,jobs,jobs_served_in_order twoRacks false _ _ c ⟨.swap _ _ _,by decide⟩ (by decide)
    (by decide) run⟩

end Cluster
end CloudSim
