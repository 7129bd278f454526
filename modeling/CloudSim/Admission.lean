import CloudSim.Flags

/-! When the scheduler of a cluster starts a job, when it waits and when it gives up. -/
namespace CloudSim

theorem RunConfig.increment_ne_nil (config : RunConfig) (id : Nat) : increment config id ≠ [] := by
  cases config with
  | nil => simp [increment]
  | cons entry rest => unfold increment; split <;> simp

theorem RunConfig.tally_ne_nil {selected : List Nat} : tally selected ≠ [] ↔ selected ≠ [] := by
  cases selected using List.reverseRecOn with
  | nil => simp [tally]
  | append_singleton rest w => simp [tally_snoc,increment_ne_nil]

theorem Sampled.ne_nil (sampled : Sampled candidates k selected) (some : 0 < k)
    (enough : k ≤ candidates.length) : selected ≠ [] := by
  have length := sampled.1
  rw [Nat.min_eq_left enough] at length
  exact List.ne_nil_of_length_pos (length ▸ some)

namespace YARNPlacement

def Fits (site : Site) (gpu : Nat → Nat) (job : Job) (useRandomWhenFail : Bool) : Prop :=
  workerCandidates site gpu job ≠ [] ∨ torCandidates site gpu job ≠ [] ∨
    useRandomWhenFail = true ∧ 0 < job.gpu ∧ job.gpu ≤ (gpuSlots gpu site.workers).length

instance (site : Site) (gpu : Nat → Nat) (job : Job) (useRandomWhenFail : Bool) :
    Decidable (Fits site gpu job useRandomWhenFail) := inferInstanceAs (Decidable (_ ∨ _ ∨ _))

variable {site : Site} {gpu : Nat → Nat} {job : Job}

/-- A job of no GPUs fits on every worker with a free GPU. -/
theorem needs_gpus (single : workerCandidates site gpu job = [])
    (member : tor ∈ torCandidates site gpu job) : 0 < job.gpu := by
  by_contra nothing
  obtain ⟨_,_,listed⟩ := List.mem_flatMap.mp member
  split at listed
  case isFalse => cases listed
  obtain ⟨free,_⟩ := List.mem_replicate.mp listed
  have slots : 0 < (gpuSlots gpu (site.machines _)).length :=
    (Nat.pos_of_ne_zero free).trans_le (freeGpusInTor_le _)
  obtain ⟨w,slot⟩ := List.exists_mem_of_length_pos slots
  obtain ⟨v,machine,copies⟩ := List.mem_flatMap.mp slot
  obtain ⟨available,rfl⟩ := List.mem_replicate.mp copies
  have candidate : w ∈ workerCandidates site gpu job := by
    refine List.mem_flatMap.mpr ⟨w,List.mem_of_mem_filter machine,?_⟩
    rw [if_pos (by omega)]
    exact List.mem_replicate.mpr ⟨available,rfl⟩
  rw [single] at candidate
  cases candidate

theorem placeJobIn_nonempty_iff
    (placed : placeJobIn site gpu job fallback draws = some (config,rest)) :
    config ≠ [] ↔ Fits site gpu job fallback := by
  unfold placeJobIn at placed
  split at placed
  case isTrue single =>
    obtain ⟨⟨selected,later⟩,_,placed⟩ := Option.bind_eq_some_iff.mp placed
    cases placed
    simp [Fits,single]
  case isFalse single =>
    have noSingle : workerCandidates site gpu job = [] := not_not.mp single
    split at placed
    case isTrue within =>
      obtain ⟨⟨chosen,later⟩,first,placed⟩ := Option.bind_eq_some_iff.mp placed
      obtain ⟨⟨selected,last⟩,second,placed⟩ := Option.bind_eq_some_iff.mp placed
      cases placed
      have candidate := sample_one within first
      have enough := (mem_torCandidates candidate).2.trans (freeGpusInTor_le _)
      have nonempty := (sample_sampled second).ne_nil (needs_gpus noSingle candidate) enough
      simp [Fits,within,RunConfig.tally_ne_nil.mpr nonempty]
    case isFalse within =>
      have noTor : torCandidates site gpu job = [] := not_not.mp within
      split at placed
      case isTrue random =>
        unfold placeAnywhere at placed
        split at placed
        case isTrue few =>
          cases placed
          simp [Fits,noSingle,noTor,Nat.not_le.mpr few]
        case isFalse enough =>
          obtain ⟨⟨selected,last⟩,drawn,placed⟩ := Option.bind_eq_some_iff.mp placed
          cases placed
          have room := Nat.not_lt.mp enough
          simp only [Fits,noSingle,noTor,random,RunConfig.tally_ne_nil,ne_eq,not_true,false_or,
            true_and,room,and_true]
          rw [← ne_eq,← List.length_pos_iff,(sample_sampled drawn).1,Nat.min_eq_left room]
      case isFalse random =>
        cases placed
        simp [Fits,noSingle,noTor,random]

end YARNPlacement

namespace RandomPlacement

def Fits (site : Site) (gpu : Nat → Nat) (job : Job) : Prop :=
  0 < job.gpu ∧ job.gpu ≤ (gpuSlots gpu site.workers).length

instance (site : Site) (gpu : Nat → Nat) (job : Job) : Decidable (Fits site gpu job) :=
  inferInstanceAs (Decidable (_ ∧ _))

theorem placeJobIn_nonempty_iff {site : Site} {gpu : Nat → Nat} {job : Job}
    (placed : placeJobIn site gpu job forceDistributed forceMultiRacks draws =
      some (config,rest)) : config ≠ [] ↔ Fits site gpu job := by
  unfold placeJobIn at placed
  split at placed
  case isTrue few =>
    cases placed
    simp [Fits,Nat.not_le.mpr few]
  case isFalse enough =>
    obtain ⟨⟨selected,last⟩,drawn,placed⟩ := Option.bind_eq_some_iff.mp placed
    cases placed
    have room := Nat.not_lt.mp enough
    rw [RunConfig.tally_ne_nil,Fits,and_iff_left room,← List.length_pos_iff,
      (select_sampled drawn).1,Nat.min_eq_left room]

end RandomPlacement

/-- Whether a job can be placed on the free GPUs, whatever is sampled. -/
def PlacementAlgo.Fits (site : Site) (gpu : Nat → Nat) (job : Job) : PlacementAlgo → Prop
  | .yarn useRandomWhenFail => YARNPlacement.Fits site gpu job useRandomWhenFail
  | .random _ _ => RandomPlacement.Fits site gpu job

instance (site : Site) (gpu : Nat → Nat) (job : Job) (placement : PlacementAlgo) :
    Decidable (placement.Fits site gpu job) :=
  match placement with
  | .yarn useRandomWhenFail =>
    inferInstanceAs (Decidable (YARNPlacement.Fits site gpu job useRandomWhenFail))
  | .random _ _ => inferInstanceAs (Decidable (RandomPlacement.Fits site gpu job))

theorem PlacementAlgo.placeJobIn_nonempty_iff {placement : PlacementAlgo} {site : Site}
    {gpu : Nat → Nat} {job : Job}
    (placed : placement.placeJobIn site gpu job draws = some (config,rest)) :
    config ≠ [] ↔ placement.Fits site gpu job := by
  cases placement with
  | yarn => exact YARNPlacement.placeJobIn_nonempty_iff placed
  | random => exact RandomPlacement.placeJobIn_nonempty_iff placed

/-- `FitFirst` chooses a pending job that fits if there is one. -/
theorem FitFirst.choose_fits {site : Site} {placement : PlacementAlgo} {c : Cluster}
    {jobs : List Job} {draws rest : Draws} {chosen : Option Job}
    (result : chooseJobToExecuteIn site placement c jobs draws = some (chosen,rest)) :
    (∀ job, chosen = some job → placement.Fits site c.gpu job) ∧
      (chosen = none → ∀ job ∈ jobs, c.started job = false → ¬placement.Fits site c.gpu job) := by
  induction jobs generalizing draws with
  | nil => cases result; exact ⟨(fun _ no => by cases no),fun _ _ member => by cases member⟩
  | cons first later ih =>
    have skip {draws : Draws}
        (result : chooseJobToExecuteIn site placement c later draws = some (chosen,rest))
        (unfit : c.started first = false → ¬placement.Fits site c.gpu first) :
        (∀ job, chosen = some job → placement.Fits site c.gpu job) ∧
          (chosen = none → ∀ job ∈ first :: later, c.started job = false →
            ¬placement.Fits site c.gpu job) := by
      obtain ⟨fits,none⟩ := ih result
      refine ⟨fits,fun nothing job member => ?_⟩
      rcases List.mem_cons.mp member with rfl | member
      · exact unfit
      · exact none nothing job member
    simp only [chooseJobToExecuteIn] at result
    split at result
    · obtain ⟨⟨config,others⟩,placed,result⟩ := Option.bind_eq_some_iff.mp result
      have fits := PlacementAlgo.placeJobIn_nonempty_iff placed
      dsimp only at result
      split at result
      · rename_i nonempty
        cases result
        refine ⟨fun job same => ?_,(fun no => by cases no)⟩
        cases same
        exact fits.mp nonempty
      · rename_i empty
        exact skip result fun _ => mt fits.mpr empty
    · rename_i started
      exact skip result fun pending => by simp [pending] at started

namespace Cluster
variable {site : Site} {algo : SchedulingAlgo} {placement : PlacementAlgo} {c d : Cluster}
  {trace : List Job}

def Led (c : Cluster) : Prop :=
  ∀ id, (c.startTime id).isSome → c.finishTime id = none → ∃ e ∈ c.executing, e.job = id ∧ e.rank = 0

theorem initial_led (site : Site) (trace : List Job) (submitAllJobs : Bool) :
    Led (initial site trace submitAllJobs) := by
  intro id begun
  have none : (initial site trace submitAllJobs).startTime id = none := by
    unfold initial awaitSubmission
    split
    · rfl
    · split <;> rfl
  simp [none] at begun

theorem first_execution (job : Job) {order : RunConfig} (nonempty : order ≠ []) :
    ∃ e ∈ executions job order, e.job = job.id ∧ e.rank = 0 := by
  obtain ⟨entry,rest,rfl⟩ := List.exists_cons_of_ne_nil nonempty
  exact ⟨⟨entry.1,job.id,0,entry.2⟩,by simp [executions],rfl,rfl⟩

theorem startJob_led (led : Led c) (job : Job) {order : RunConfig} (nonempty : order ≠ []) :
    Led (c.startJob job order) := by
  obtain ⟨gpu,wrapped,same⟩ := startJob_eq c job order
  rw [same]
  intro id begun unfinished
  by_cases own : id = job.id
  · obtain ⟨e,member,leads,rank⟩ := first_execution job nonempty
    exact ⟨e,List.mem_append_left _ member,leads.trans own.symm,rank⟩
  · obtain ⟨e,member,leads⟩ := led id (by simpa [logged,own] using begun) unfinished
    exact ⟨e,List.mem_append_right _ member,leads⟩

theorem finish_led (led : Led c) (e : Execution) : Led (c.finish e) := by
  obtain ⟨flag,same⟩ := finish_eq c e
  rw [same]
  intro id begun unfinished
  dsimp only at unfinished
  have kept (leader : Execution) (member : leader ∈ c.executing) (other : leader ≠ e) :
      leader ∈ c.executing.erase e := (List.mem_erase_of_ne other).mpr member
  split at unfinished
  · dsimp only at unfinished
    split at unfinished
    · cases unfinished
    · rename_i elsewhere
      obtain ⟨leader,member,leads,rank⟩ := led id begun unfinished
      exact ⟨leader,kept leader member fun same => elsewhere (by rw [← leads,same]),leads,rank⟩
  · rename_i follower
    obtain ⟨leader,member,leads,rank⟩ := led id begun unfinished
    exact ⟨leader,kept leader member fun same => follower (by rw [← same,rank]),leads,rank⟩

theorem change_led (led : Led c) (change : Change site algo placement c l d) : Led d := by
  cases change with
  | tick => exact led
  | submit next =>
    rename_i job rest
    cases rest <;> exact led
  | pause => exact led
  | reject => exact led
  | start choosing chosen placed nonempty iterated =>
    refine startJob_led led _ fun empty => nonempty ?_
    rw [empty] at iterated
    exact iterated.nil_eq.symm
  | wake => exact led
  | finish member => exact finish_led led _

theorem Led.numRunningJobs (led : Led c) (idle : c.executing = []) : c.numRunningJobs = 0 := by
  refine List.length_eq_zero_iff.mpr (List.filter_eq_nil_iff.mpr fun job _ running => ?_)
  simp only [started,finished,Bool.and_eq_true,Bool.not_eq_true',Option.isSome_eq_false_iff,
    Option.isNone_iff_eq_none] at running
  obtain ⟨e,member,_⟩ := led job.id running.1 running.2
  rw [idle] at member
  cases member

/-- A worker is still executing a job that counts as finished. -/
def Straggling (c : Cluster) : Prop := ∃ e ∈ c.executing, (c.finishTime e.job).isSome

instance (c : Cluster) : Decidable (Straggling c) :=
  inferInstanceAs (Decidable (∃ e ∈ c.executing, (c.finishTime e.job).isSome))

/-- What is executed belongs to a job that counts as running, or straggles. -/
theorem Recorded.idle (recorded : Recorded trace c) (none : c.numRunningJobs = 0)
    (settled : ¬c.Straggling) : c.executing = [] := by
  refine List.eq_nil_iff_forall_not_mem.mpr fun e member => ?_
  have begun := recorded.executing e member
  obtain ⟨job,known,same⟩ := recorded.started e.job begun
  have unfinished : (c.finishTime e.job).isSome = false := by
    by_contra ended
    exact settled ⟨e,member,Bool.not_eq_false _ ▸ ended⟩
  have running : job ∈ c.jobs.filter fun job => c.started job && !c.finished job :=
    List.mem_filter.mpr ⟨known,by simp [Cluster.started,Cluster.finished,same,begun,unfinished]⟩
  rw [List.length_eq_zero_iff.mp none] at running
  cases running

theorem run_recorded {ok : ClusterStep → Cluster → Prop} {submitAllJobs : Bool}
    (run : Runs.Run (step site algo placement) ok (initial site trace submitAllJobs) c) :
    Recorded trace c ∧ Conserved site c ∧ Led c := by
  have preserved (l : ClusterStep) (s t : Cluster)
      (inv : Recorded trace s ∧ Conserved site s ∧ Led s) (_ : ok l s)
      (taken : step site algo placement l s = some t) :
      Recorded trace t ∧ Conserved site t ∧ Led t :=
    have change := step_change taken
    ⟨change_recorded inv.1 change,step_conserved l s t inv.2.1 taken,change_led inv.2.2 change⟩
  have whole := run.invariant preserved
    ⟨initial_recorded _ _ _,initial_conserved _ _ _,initial_led _ _ _⟩
  exact whole

theorem Conserved.idle (conserved : Conserved site c) (idle : c.executing = []) :
    c.gpu = site.gpuCapacity := by
  funext w
  have sum := conserved.gpus w
  rwa [idle] at sum

/-- A job that is rejected while no worker straggles could not be placed on the whole cluster. -/
theorem rejected_job_never_fits (site : Site) (algo : SchedulingAlgo) (placement : PlacementAlgo)
    (trace : List Job) (submitAllJobs : Bool) (c d : Cluster) (draws : Draws) (order : RunConfig)
    (run : Runs.Run (step site algo placement) Runs.anyStep (initial site trace submitAllJobs) c)
    (taken : step site algo placement (.schedule draws order) c = some d)
    (exits : d.scheduler = .aborted) (settled : ¬c.Straggling) :
    ∃ job rest, algo.chooseJobToExecuteIn site placement c draws = some (some job,rest) ∧
      ∀ draws config rest,
        placement.placeJobIn site site.gpuCapacity job draws = some (config,rest) → config = [] := by
  cases step_change taken with
  | pause => cases exits
  | reject choosing chosen placed =>
    refine ⟨_,_,chosen,fun later config last again => ?_⟩
    have none : c.numRunningJobs = 0 := by
      by_contra running
      simp [running] at exits
    obtain ⟨recorded,conserved,_⟩ := run_recorded run
    have free := conserved.idle (recorded.idle none settled)
    have unfit := mt (PlacementAlgo.placeJobIn_nonempty_iff placed).mpr (not_not.mpr rfl)
    rw [free] at unfit
    exact not_not.mp (mt (PlacementAlgo.placeJobIn_nonempty_iff again).mp unfit)
  | start choosing =>
    simp only [loopHead] at exits
    split at exits <;> cases exits

/-- What the algorithm needs to choose a job that starts or is rejected. -/
def Progresses (site : Site) (placement : PlacementAlgo) (c : Cluster) : SchedulingAlgo → Prop
  | .firstComeFirstServed blocking =>
    ∃ job, FirstComeFirstServed.chooseJobToExecuteIn blocking c c.jobs = some job ∧
      (c.numRunningJobs = 0 ∨ placement.Fits site c.gpu job)
  | .fitFirst => ∃ job ∈ c.jobs, c.started job = false ∧ placement.Fits site c.gpu job

theorem choose_progresses {choice : Option Job} {rest : Draws}
    (chosen : algo.chooseJobToExecuteIn site placement c draws = some (choice,rest)) :
    Progresses site placement c algo ↔
      ∃ job, choice = some job ∧ (c.numRunningJobs = 0 ∨ placement.Fits site c.gpu job) := by
  cases algo with
  | firstComeFirstServed blocking =>
    obtain ⟨first,_⟩ := Prod.mk.inj (Option.some.inj chosen)
    simp [Progresses,first]
  | fitFirst =>
    obtain ⟨fits,none⟩ := FitFirst.choose_fits chosen
    constructor
    · rintro ⟨job,member,pending,fit⟩
      cases choice with
      | none => exact absurd fit (none rfl job member pending)
      | some other => exact ⟨other,rfl,.inr (fits other rfl)⟩
    · rintro ⟨job,rfl,_⟩
      obtain ⟨member,pending⟩ := SchedulingAlgo.choose_pending chosen
      exact ⟨job,member,pending,fits job rfl⟩

/-- A round of the scheduler starts or rejects a job exactly if the algorithm progresses. -/
theorem schedule_progresses
    (taken : step site algo placement (.schedule draws order) c = some d) :
    (d.scheduler = .aborted ∨ ∃ job ∈ c.jobs, c.started job = false ∧ d.started job = true) ↔
      Progresses site placement c algo := by
  have same (records : d.startTime = c.startTime) :
      ¬∃ job ∈ c.jobs, c.started job = false ∧ d.started job = true := by
    rintro ⟨job,_,pending,begun⟩
    rw [started,records] at begun
    exact Bool.false_ne_true (pending.symm.trans begun)
  cases step_change taken with
  | pause choosing chosen =>
    rw [choose_progresses chosen]
    constructor
    · rintro (exits | begins)
      · cases exits
      · exact absurd begins (same rfl)
    · rintro ⟨_,known,_⟩
      cases known
  | @reject _ job _ _ _ choosing chosen placed =>
    have unfit := mt (PlacementAlgo.placeJobIn_nonempty_iff placed).mpr (not_not.mpr rfl)
    rw [choose_progresses chosen]
    constructor
    · rintro (exits | begins)
      · refine ⟨job,rfl,.inl ?_⟩
        by_contra running
        simp [running] at exits
      · exact absurd begins (same rfl)
    · rintro ⟨_,⟨⟩,none | fit⟩
      · exact .inl (by simp [none])
      · exact absurd fit unfit
  | @start _ job _ _ _ _ choosing chosen placed nonempty iterated =>
    obtain ⟨known,pending⟩ := SchedulingAlgo.choose_pending chosen
    rw [choose_progresses chosen]
    refine ⟨fun _ => ⟨job,rfl,.inr ((PlacementAlgo.placeJobIn_nonempty_iff placed).mp nonempty)⟩,
      fun _ => .inr ⟨job,known,pending,?_⟩⟩
    obtain ⟨gpu,wrapped,whole⟩ := startJob_eq c job order
    change ((c.startJob job order).startTime job.id).isSome = true
    simp [whole,logged]

/-- A chooser of the first kind finds a pending job when no job is running. -/
theorem choose_of_idle {blocking : Bool} (idle : c.numRunningJobs = 0)
    (pending : ∃ job ∈ c.jobs, c.started job = false) :
    ∃ job, FirstComeFirstServed.chooseJobToExecuteIn blocking c c.jobs = some job := by
  have through (jobs : List Job) (inside : jobs ⊆ c.jobs)
      (pending : ∃ job ∈ jobs, c.started job = false) :
      ∃ job, FirstComeFirstServed.chooseJobToExecuteIn blocking c jobs = some job := by
    induction jobs with
    | nil => simp at pending
    | cons first rest ih =>
      obtain ⟨known,inside⟩ := List.cons_subset.mp inside
      unfold FirstComeFirstServed.chooseJobToExecuteIn
      split
      · exact ⟨first,rfl⟩
      · rename_i begun
        have started : c.started first = true := by simpa using begun
        have finished : c.finished first = true := by
          by_contra running
          have counted : first ∈ c.jobs.filter fun job => c.started job && !c.finished job :=
            List.mem_filter.mpr ⟨known,by simp [started,running]⟩
          rw [List.length_eq_zero_iff.mp idle] at counted
          cases counted
        rw [if_neg (by simp [finished])]
        refine ih inside ?_
        obtain ⟨job,member,open'⟩ := pending
        rcases List.mem_cons.mp member with rfl | later
        · exact absurd (open'.symm.trans started) Bool.false_ne_true
        · exact ⟨job,later,open'⟩
  exact through c.jobs (List.Subset.refl _) pending

/-- While no GPU is taken and a job is pending, a round of the scheduler starts or rejects a job
exactly if the algorithm progresses. If moreover nothing is executing, only `FitFirst` may not:
it ignores pending jobs that are too large for the cluster. -/
theorem idle_cluster_progresses (site : Site) (algo : SchedulingAlgo) (placement : PlacementAlgo)
    (trace : List Job) (submitAllJobs : Bool) (c : Cluster)
    (run : Runs.Run (step site algo placement) Runs.anyStep (initial site trace submitAllJobs) c)
    (pending : ∃ job ∈ c.jobs, c.started job = false)
    (free : ∀ w, gpusHeld c.executing w = 0) :
    (∀ draws order d, step site algo placement (.schedule draws order) c = some d →
      ((d.scheduler = .aborted ∨ ∃ job ∈ c.jobs, c.started job = false ∧ d.started job = true) ↔
        Progresses site placement c algo)) ∧
    c.gpu = site.gpuCapacity ∧
    (c.executing = [] → (Progresses site placement c algo ↔ (algo = .fitFirst →
      ∃ job ∈ c.jobs, c.started job = false ∧ placement.Fits site site.gpuCapacity job))) := by
  obtain ⟨_,conserved,led⟩ := run_recorded run
  have gpu : c.gpu = site.gpuCapacity := by
    funext w
    have sum := conserved.gpus w
    rwa [free w,Nat.add_zero] at sum
  refine ⟨fun draws order d taken => schedule_progresses taken,gpu,fun idle => ?_⟩
  cases algo with
  | firstComeFirstServed blocking =>
    have none := led.numRunningJobs idle
    have chooses : ∃ job, FirstComeFirstServed.chooseJobToExecuteIn blocking c c.jobs = some job :=
      choose_of_idle none pending
    obtain ⟨job,chosen⟩ := chooses
    exact ⟨(fun _ other => by cases other),fun _ => ⟨job,chosen,.inl none⟩⟩
  | fitFirst =>
    rw [← gpu]
    exact ⟨fun progress _ => progress,fun progress => progress rfl⟩

/-- The job that is submitted at once asks for more GPUs than the cluster has. -/
theorem fit_first_stalls :
    ∃ c d : Cluster, Runs.Run (step twoRacks .fitFirst (.yarn true)) Runs.anyStep
        (initial twoRacks [⟨0,17,0⟩] true) c ∧
      (∃ job ∈ c.jobs, c.started job = false) ∧ c.executing = [] ∧
      step twoRacks .fitFirst (.yarn true) (.schedule [] []) c = some d ∧
      d = { c with scheduler := .waiting } :=
  ⟨_,_,.nil,⟨⟨0,17,0⟩,by decide⟩,rfl,rfl,rfl⟩

/-- The same round with the default algorithm gives the job up. -/
theorem idle_cluster_progresses_rejection :
    let c := initial twoRacks [⟨0,17,0⟩] true
    ∃ d, step twoRacks (.firstComeFirstServed false) (.yarn true) (.schedule [] []) c = some d ∧
      (d.scheduler = .aborted ∨ ∃ job ∈ c.jobs, c.started job = false ∧ d.started job = true) := by
  obtain ⟨rounds,_,idle⟩ := idle_cluster_progresses twoRacks (.firstComeFirstServed false)
    (.yarn true) [⟨0,17,0⟩] true _ .nil ⟨⟨0,17,0⟩,by decide⟩ fun _ => rfl
  exact ⟨_,rfl,(rounds [] [] _ rfl).mpr ((idle rfl).mpr fun other => by cases other)⟩

/-- The first worker of the job has finished it, the second has not, when a job that needs the
whole cluster is rejected. -/
theorem job_rejected_beside_straggler :
    ∃ c d : Cluster, Runs.Run (step twoRacks (.firstComeFirstServed false) (.yarn true))
        Runs.anyStep (initial twoRacks [⟨0,6,0⟩,⟨1,16,0⟩] true) c ∧
      step twoRacks (.firstComeFirstServed false) (.yarn true) (.schedule [] []) c = some d ∧
      d.scheduler = .aborted ∧
      SchedulingAlgo.chooseJobToExecuteIn twoRacks (.yarn true) c [] (.firstComeFirstServed false) =
        some (some ⟨1,16,0⟩,[]) ∧
      ∃ draws config rest, PlacementAlgo.placeJobIn twoRacks twoRacks.gpuCapacity ⟨1,16,0⟩ draws
        (.yarn true) = some (config,rest) ∧ config ≠ [] := by
  have ends : (Runs.exec (step twoRacks (.firstComeFirstServed false) (.yarn true)) Runs.anyStep
      [.schedule [[1],[2,2,2,2,3,3]] [(3,2),(2,4)],.finish ⟨3,0,0,2⟩]
      (initial twoRacks [⟨0,6,0⟩,⟨1,16,0⟩] true)).map (fun c =>
        ((step twoRacks (.firstComeFirstServed false) (.yarn true) (.schedule [] []) c).map
          Cluster.scheduler,
        SchedulingAlgo.chooseJobToExecuteIn twoRacks (.yarn true) c []
          (.firstComeFirstServed false))) =
      some (some .aborted,some (some ⟨1,16,0⟩,[])) := by decide
  obtain ⟨c,run,view⟩ := Runs.exists_run_of_exec ends
  obtain ⟨aborted,chosen⟩ := Prod.mk.inj view
  obtain ⟨d,taken,exits⟩ := Option.map_eq_some_iff.mp aborted
  refine ⟨c,d,run,taken,exits,chosen,[[0,0,0,0,1,1,1,1,2,2,2,2,3,3,3,3]],_,_,rfl,?_⟩
  decide

/-- A job of more GPUs than the cluster has. -/
theorem rejected_job_never_fits_too_large :
    ∃ d, step twoRacks (.firstComeFirstServed true) (.yarn true) (.schedule [] [])
        (initial twoRacks [⟨0,17,0⟩] true) = some d ∧
      ∃ job rest, SchedulingAlgo.chooseJobToExecuteIn twoRacks (.yarn true)
          (initial twoRacks [⟨0,17,0⟩] true) [] (.firstComeFirstServed true) = some (some job,rest) ∧
        ∀ draws config rest, PlacementAlgo.placeJobIn twoRacks twoRacks.gpuCapacity job draws
          (.yarn true) = some (config,rest) → config = [] :=
  ⟨_,rfl,rejected_job_never_fits twoRacks (.firstComeFirstServed true) (.yarn true) [⟨0,17,0⟩] true
    _ _ [] [] .nil rfl rfl (by decide)⟩

end Cluster
end CloudSim
