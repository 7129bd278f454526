import CloudSim.Cleaners
import CloudSim.Ledger
import CloudSim.ParityCounter

/-! The marks that `allreduce` prints at the end of an iteration. A worker has one counter of two
cells for all of its jobs, and every call of `allreduce` counts. -/
namespace CloudSim

namespace Worker

theorem counter_receivePacket (cfg : Config) (objs : Objects) (w : Worker) (p : Packet) :
    (w.receivePacket cfg objs p).worker.allreduceCounter = w.allreduceCounter := by
  simp only [receivePacket]
  split <;> [skip; split <;> [skip; split]] <;> rfl

/-- A call counts in the cell of its iteration, and a full cell clears the other. -/
theorem countAllreduce_spec (w : Worker) (iter modelSize : Nat) :
    let counted := w.countAllreduce iter modelSize
    counted.1.allreduceCounter.get (iter % 2) = u32 (w.allreduceCounter.get (iter % 2) + 1) ∧
      (u32 (w.allreduceCounter.get (iter % 2) + 1) = modelSize →
        counted.1.allreduceCounter.get (1 - iter % 2) = 0) ∧
      counted.2 = decide (u32 (w.allreduceCounter.get (iter % 2) + 1) = modelSize) := by
  have apart : iter % 2 ≠ 1 - iter % 2 := by omega
  simp only [countAllreduce,Table.get_put_same]
  split
  · rename_i full
    exact ⟨by rw [Table.get_put_other _ apart,Table.get_put_same],
      fun _ => Table.get_put_same ..,(decide_eq_true full).symm⟩
  · rename_i open'
    exact ⟨Table.get_put_same ..,fun full => absurd full open',(decide_eq_false open').symm⟩

end Worker

theorem HierarchicalTopology.counter_setSwitchNumUpdates (topo : HierarchicalTopology)
    (jobId : Nat) (wids torOrder : List Nat) (net : Network) (w : Nat) :
    ((topo.setSwitchNumUpdates jobId wids torOrder net).worker w).allreduceCounter =
      (net.worker w).allreduceCounter := by
  have kept (s : Wiring) (wid : Nat) :
      ((topo.wireWorker jobId s wid).net.worker w).allreduceCounter =
        (s.net.worker w).allreduceCounter := by
    simp only [wireWorker]
    split
    · rfl
    · rcases eq_or_ne w wid with rfl | other
      · simp
      · simp [other]
  rw [setSwitchNumUpdates_worker,wireWorkers]
  have loop (s : Wiring) : ((wids.foldl (topo.wireWorker jobId) s).net.worker w).allreduceCounter =
      (s.net.worker w).allreduceCounter := by
    induction wids generalizing s with
    | nil => rfl
    | cons wid rest ih => rw [List.foldl_cons,ih,kept]
  exact loop ⟨net,default,[]⟩

namespace Fabric
variable (cfg : Config) (f : Fabric)

theorem counter_deliver (fl : Flight) (w : Nat) :
    ((f.deliver cfg fl).net.worker w).allreduceCounter = (f.net.worker w).allreduceCounter := by
  rcases dest : fl.hop.dest with t | _ | v
  all_goals simp only [deliver,dest]
  case worker =>
    simp only [atWorker]
    rcases eq_or_ne w v with rfl | other
    · rw [Network.setWorker_same,Worker.counter_receivePacket]
    · rw [Network.setWorker_other _ _ other]
  all_goals simp only [atSwitch,Network.setSwitch_worker]

/-- The end of a call counts it on its worker and moves its tensor on. -/
theorem finish_counts (r : TensorRef) (gradSize turn : Nat) :
    let counted := (f.net.worker r.machine).countAllreduce (f.objs.tensor r).iter
      (f.objs.modelSize r.job)
    ((f.finish cfg r gradSize turn).net.worker r.machine).allreduceCounter =
        counted.1.allreduceCounter ∧
      (∀ w, w ≠ r.machine → ((f.finish cfg r gradSize turn).net.worker w).allreduceCounter =
        (f.net.worker w).allreduceCounter) ∧
      (f.finish cfg r gradSize turn).objs.modelSize = f.objs.modelSize ∧
      (f.finish cfg r gradSize turn).objs.tensor =
        Function.update f.objs.tensor r (Worker.advanceTensor (f.objs.tensor r) gradSize) := by
  obtain ⟨objs,_,_,_,_,worker⟩ := (f.tally r gradSize).cleanUp_fields cfg r turn
  rw [finish,objs,worker]
  refine ⟨?_,fun w other => ?_,rfl,rfl⟩
  · exact congrArg Worker.allreduceCounter (Network.setWorker_same ..)
  · exact congrArg Worker.allreduceCounter (Network.setWorker_other _ _ other)

end Fabric
namespace Training
variable {d : Plan} {s s' : Training}

/-- The call of `allreduce` that a step ends, and its `grad_size`. -/
def callEnd (s : Training) : Label → Option (TensorRef × Nat)
  | .resume (.call r k) =>
    match s.stage r k with
    | .second gradSize => some (r,gradSize)
    | _ => none
  | _ => none

structure SameCounts (f f' : Fabric) : Prop where
  counter : ∀ w, (f'.net.worker w).allreduceCounter = (f.net.worker w).allreduceCounter
  iter : ∀ r, (f'.objs.tensor r).iter = (f.objs.tensor r).iter
  modelSize : f'.objs.modelSize = f.objs.modelSize

theorem SameCounts.of_eq {f f' : Fabric} (same : f' = f) : SameCounts f f' := by
  subst same
  exact ⟨fun _ => rfl,fun _ => rfl,rfl⟩

theorem sameCounts_of_step {label : Label} (taken : step d label s = some s')
    (none : s.callEnd label = none) : SameCounts s.fabric s'.fabric := by
  cases stepped taken with
  | place _ =>
    exact ⟨fun w => d.topo.counter_setSwitchNumUpdates _ _ _ _ w,fun _ => rfl,rfl⟩
  | execute _ _ _ =>
    obtain ⟨_,onward,_⟩ := s.iterate_onward d _ _ 0
    exact .of_eq onward.fabric
  | elapse taken => exact .of_eq (elapse_frame taken).1
  | job _ taken =>
    obtain ⟨_,onward,_⟩ := resumeJob_frame taken
    exact .of_eq onward.fabric
  | @launch r k _ _ =>
    refine ⟨fun _ => rfl,fun q => ?_,rfl⟩
    change (Function.update s.fabric.objs.tensor r _ q).iter = _
    rcases eq_or_ne q r with rfl | other
    · rw [Function.update_self]
    · rw [Function.update_of_ne other]
  | finish _ second => simp [callEnd,second] at none
  | call _ _ _ => exact .of_eq rfl
  | @deliver fl _ _ =>
    rw [(s.deliver_fields d fl).1]
    have objs := (s.fabric.deliver_fields d.cfg fl).2.1
    exact ⟨fun w => s.fabric.counter_deliver d.cfg fl w,fun r => by rw [objs],by rw [objs]⟩

theorem callEnd_spec {label : Label} (taken : step d label s = some s')
    (some' : s.callEnd label = some (r,g)) : ∃ k, label = .resume (.call r k) ∧
      s.stage r k = .second g ∧ .call r k ∈ s.granted ∧ s'.fabric = s.fabric.finish d.cfg r g k := by
  cases stepped taken with
  | place _ | execute _ _ _ | elapse _ | job _ _ | call _ _ _ | deliver _ _ => cases some'
  | launch _ first => simp [callEnd,first] at some'
  | @finish q k g' granted second =>
    simp only [callEnd,second] at some'
    cases some'
    exact ⟨k,rfl,second,granted,
      ({ s with granted := s.granted.erase (.call r k) }.finish_fields d r k g).1⟩

/-- The iterations that are over on worker `w`. -/
def rounds (d : Plan) (s : Training) (w : Nat) : ParityCounter.Rounds Nat :=
  fun j t => s.reduced d ⟨w,j,t⟩

def counter (s : Training) (w cell : Nat) : Nat :=
  (s.fabric.net.worker w).allreduceCounter.get cell

/-- `allreduce` prints the mark when the call of `r` ends. -/
def marked (s : Training) (r : TensorRef) : Bool :=
  ((s.fabric.net.worker r.machine).countAllreduce (s.fabric.objs.tensor r).iter
    (s.fabric.objs.modelSize r.job)).2

/-- Without the end of a call, an iteration ends only where a job has one worker. -/
theorem ended_single {label : Label} (none : s.callEnd label = none)
    (ends : s.ended d label = some r) : ¬1 < (d.tree r.job).workers.length := by
  cases label with
  | place _ | execute _ _ | call _ | deliver _ => cases ends
  | elapse w j =>
    simp only [ended] at ends
    split at ends
    · split at ends <;> cases ends
      assumption
    · cases ends
  | resume waiter =>
    cases waiter with
    | job _ _ => cases ends
    | call q k =>
      simp only [callEnd] at none
      simp only [ended] at ends
      split at ends
      · rename_i second
        simp [second] at none
      · cases ends

/-- The end of a call in iteration `n` counts once, unless the cell wraps. -/
theorem counter_finish (fabric : s'.fabric = s.fabric.finish d.cfg r g k)
    (iter : (s.fabric.objs.tensor r).iter = u32 n) (sizes : s.fabric.objs.modelSize = d.modelSize)
    (room : s.counter r.machine (n % 2) + 1 < 2^32) :
    s'.counter r.machine (n % 2) = s.counter r.machine (n % 2) + 1 ∧
      (s.counter r.machine (n % 2) + 1 = d.modelSize r.job →
        s'.counter r.machine (1 - n % 2) = 0) ∧
      s.marked r = decide (s.counter r.machine (n % 2) + 1 = d.modelSize r.job) := by
  obtain ⟨cells,_⟩ := s.fabric.finish_counts d.cfg r g k
  rw [← fabric] at cells
  have spec := Worker.countAllreduce_spec (s.fabric.net.worker r.machine)
    (s.fabric.objs.tensor r).iter (s.fabric.objs.modelSize r.job)
  have parity : u32 n % 2 = n % 2 := Nat.mod_mod_of_dvd _ (by decide)
  simp only [counter] at room
  simp only [iter,parity,sizes,u32_of_lt room] at spec cells
  obtain ⟨bumped,resets,mark⟩ := spec
  refine ⟨?_,fun full => ?_,?_⟩
  · rw [counter,cells]
    exact bumped
  · rw [counter,cells]
    exact resets full
  · rw [marked,iter,sizes]
    exact mark

end Training

/-- A simulation with the marks of `allreduce`, each with its worker and job. `last w` has the job
and the iteration of the last call that ended on worker `w`. Both are history. -/
structure Marking where
  training : Training
  last : Nat → Option (Nat × Nat) := fun _ => none
  marks : List (Nat × Nat) := []

namespace Marking

def step (d : Plan) (label : Training.Label) (m : Marking) : Option Marking :=
  (Training.step d label m.training).map fun training =>
    match m.training.callEnd label with
    | none => { m with training := training }
    | some (r,_) =>
      { training := training
        last := Function.update m.last r.machine (some (r.job,m.training.reduced d r))
        marks := if m.training.marked r then m.marks ++ [(r.machine,r.job)] else m.marks }

def initial (d : Plan) : Marking where
  training := Training.initial d

def Reducing (d : Plan) (w j : Nat) : Prop :=
  w ∈ (d.tree j).workers ∧ 1 < (d.tree j).workers.length

/-- As many marks as iterations all of whose tensors the worker has reduced completely. -/
def Exact (d : Plan) (m : Marking) : Prop :=
  ∀ w j, Reducing d w j → 0 < d.modelSize j → m.marks.count (w,j) =
    ParityCounter.numComplete d.modelSize (m.training.rounds d w) (d.nIter j) j

/-- A call that ends has reduced the rest of its tensor. If the last call before it on the worker was
of another job, then that job has ended its iteration, which had the other parity. -/
def aligned (d : Plan) (label : Training.Label) (m : Marking) : Prop :=
  ∀ call ∈ m.training.callEnd label,
    (m.training.fabric.objs.tensor call.1).size ≤
        u64 ((m.training.fabric.objs.tensor call.1).allreducedSize + call.2) ∧
      d.modelSize call.1.job < 2^32 ∧
      ParityCounter.Aligned d.modelSize (m.training.rounds d call.1.machine)
        (m.last call.1.machine) call.1.job (m.training.reduced d call.1)

instance (d : Plan) (label : Training.Label) (m : Marking) : Decidable (aligned d label m) :=
  inferInstanceAs (Decidable (∀ call ∈ m.training.callEnd label, _ ∧ _ ∧ _))

structure Kept (d : Plan) (m : Marking) : Prop where
  ledger : Training.Ledger d m.training
  sizes : m.training.fabric.objs.modelSize = d.modelSize
  iters : ∀ r, d.Real r → 1 < (d.tree r.job).workers.length →
    (m.training.fabric.objs.tensor r).iter = u32 (m.training.reduced d r)
  counts : ∀ w, ParityCounter.Counts d.modelSize (Reducing d w) (m.training.rounds d w)
    (m.training.counter w) (m.last w)
  exact : Exact d m

variable {d : Plan} {m m' : Marking}

theorem Kept.quiet (keys : d.DistinctKeys) (kept : Kept d m) {label : Training.Label}
    {training : Training} (taken : Training.step d label m.training = some training)
    (none : m.training.callEnd label = none) : Kept d { m with training := training } := by
  obtain ⟨ledger,now⟩ := kept.ledger.step keys taken
  have frame := Training.sameCounts_of_step taken none
  have same (r : TensorRef) (real : d.Real r) (several : 1 < (d.tree r.job).workers.length) :
      training.reduced d r = m.training.reduced d r := by
    rw [now r real,if_neg fun ends => Training.ended_single none ends several]
    rfl
  have rounds (w j : Nat) (reducing : Reducing d w j) (t : Nat) (below : t < d.modelSize j) :
      training.rounds d w j t = m.training.rounds d w j t :=
    same ⟨w,j,t⟩ ⟨reducing.1,below⟩ reducing.2
  have counter (w : Nat) : training.counter w = m.training.counter w := by
    funext cell
    rw [Training.counter,frame.counter]
    rfl
  refine ⟨ledger,frame.modelSize.trans kept.sizes,fun r real several => ?_,fun w => ?_,
    fun w j reducing some => ?_⟩
  · rw [frame.iter,same r real several]
    exact kept.iters r real several
  · rw [counter]
    exact (kept.counts w).congr (rounds w)
  · rw [ParityCounter.numComplete_congr (rounds w j reducing)]
    exact kept.exact w j reducing some

theorem count_marks (shown : Bool) (marks : List (Nat × Nat)) (mark a : Nat × Nat) :
    (if shown then marks ++ [mark] else marks).count a =
      marks.count a + if shown ∧ mark = a then 1 else 0 := by
  cases shown with
  | false => simp
  | true => simp [List.count_append,List.count_singleton]

theorem Kept.call (keys : d.DistinctKeys) (kept : Kept d m) {label : Training.Label}
    {training : Training} (taken : Training.step d label m.training = some training)
    (some' : m.training.callEnd label = some (r,g)) (allowed : aligned d label m) :
    Kept d
      { training := training
        last := Function.update m.last r.machine (some (r.job,m.training.reduced d r))
        marks := if m.training.marked r then m.marks ++ [(r.machine,r.job)] else m.marks } := by
  obtain ⟨ledger,now⟩ := kept.ledger.step keys taken
  obtain ⟨whole,small,order⟩ := allowed (r,g) some'
  obtain ⟨k,rfl,second,granted,fabric⟩ := Training.callEnd_spec taken some'
  obtain ⟨extra,orderly⟩ := kept.ledger.orderly
  obtain ⟨real,called,stage,_⟩ := orderly.leased.resumes granted
  have busy : m.training.pending r = true :=
    (orderly.leased.lease r real).pending_of_call (by rw [stage,second]; exact nofun)
  have several := kept.ledger.several r busy
  have past : m.training.ended d (.resume (.call r k)) = some r := by
    simp only [Training.ended,second]
    exact if_pos whole
  rw [past] at now
  have elsewhere (w : Nat) (other : w ≠ r.machine) (j : Nat) (reducing : Reducing d w j) (t : Nat)
      (below : t < d.modelSize j) : training.rounds d w j t = m.training.rounds d w j t := by
    refine (now ⟨w,j,t⟩ ⟨reducing.1,below⟩).trans ?_
    rw [if_neg fun same => other (congrArg TensorRef.machine (Option.some.inj same)).symm]
    rfl
  have alive : Reducing d r.machine r.job := ⟨real.1,several⟩
  have after : ParityCounter.Ends d.modelSize (Reducing d r.machine)
      (m.training.rounds d r.machine) (training.rounds d r.machine) r.job r.tensorId := by
    intro i reducing u below
    have same := now ⟨r.machine,i,u⟩ ⟨reducing.1,below⟩
    constructor
    · rintro ⟨rfl,rfl⟩
      rwa [if_pos rfl] at same
    · intro apart
      rwa [if_neg fun own => apart ⟨(congrArg TensorRef.job (Option.some.inj own)).symm,
        (congrArg TensorRef.tensorId (Option.some.inj own)).symm⟩] at same
  have level (u : Nat) (below : u < d.modelSize r.job) := kept.ledger.level busy real below
  have inside := real.2
  have counted := (kept.counts r.machine).cell_eq alive inside level order
  have room : m.training.counter r.machine (m.training.reduced d r % 2) + 1 ≤ d.modelSize r.job := by
    have one := ParityCounter.numDone_ends after alive inside
    have most := ParityCounter.numDone_le d.modelSize (training.rounds d r.machine) r.job
      (m.training.rounds d r.machine r.job r.tensorId)
    have counted : m.training.counter r.machine (m.training.reduced d r % 2) = _ := counted
    omega
  obtain ⟨bumped,resets,mark⟩ := Training.counter_finish fabric (kept.iters r real several)
    kept.sizes (room.trans_lt small)
  obtain ⟨counts,full⟩ := (kept.counts r.machine).ends alive inside level order after bumped resets
  obtain ⟨_,others,modelSize,tensors⟩ := m.training.fabric.finish_counts d.cfg r g k
  rw [← fabric] at others modelSize tensors
  refine ⟨ledger,modelSize.trans kept.sizes,fun q exists' multi => ?_,fun w => ?_,
    fun w j reducing some => ?_⟩
  · rw [now q exists',tensors]
    rcases eq_or_ne q r with rfl | other
    · rw [Function.update_self,Worker.advanceTensor_whole whole,if_pos rfl]
      simp only [kept.iters q real several,u32]
      omega
    · rw [Function.update_of_ne other,if_neg fun same => other (Option.some.inj same).symm]
      exact kept.iters q exists' multi
  · rcases eq_or_ne w r.machine with rfl | other
    · simp only [Function.update_self]
      exact counts
    · simp only [Function.update_of_ne other]
      have counter : training.counter w = m.training.counter w := by
        funext cell
        rw [Training.counter,others w other]
        rfl
      rw [counter]
      exact (kept.counts w).congr (elsewhere w other)
  · refine (count_marks (m.training.marked r) m.marks (r.machine,r.job) (w,j)).trans ?_
    rw [kept.exact w j reducing some]
    by_cases own : (r.machine,r.job) = (w,j)
    · obtain ⟨rfl,rfl⟩ := Prod.mk.inj own
      have early : m.training.rounds d r.machine r.job r.tensorId < d.nIter r.job := by
        have bound := ledger.reduced_le r
        rw [now r real,if_pos rfl] at bound
        exact bound
      rw [ParityCounter.numComplete_ends after alive inside (fun u below => (level u below).1) early]
      rw [mark]
      simp only [decide_eq_true_iff,and_true]
      exact congrArg _ (if_congr full rfl rfl)
    · rw [if_neg fun both => own both.2,Nat.add_zero]
      refine (ParityCounter.numComplete_congr fun t below => ?_).symm
      by_cases here : w = r.machine
      · subst here
        exact (after j reducing t below).2 fun same => own (by rw [same.1])
      · exact elsewhere w here j reducing t below

theorem Kept.step (keys : d.DistinctKeys) (kept : Kept d m) {label : Training.Label}
    (allowed : aligned d label m) (taken : Marking.step d label m = some m') : Kept d m' := by
  obtain ⟨training,next,rfl⟩ := Option.map_eq_some_iff.mp taken
  cases ends : m.training.callEnd label with
  | none => exact kept.quiet keys next ends
  | some call => exact kept.call keys next ends allowed

theorem initial_kept (d : Plan) : Kept d (initial d) where
  ledger := Training.initial_ledger d
  sizes := rfl
  iters _ _ _ := rfl
  counts _ :=
    { alive := nofun
      fresh := fun _ => ⟨fun _ => rfl,fun _ _ _ _ => rfl⟩
      level := fun _ _ _ _ _ _ _ => rfl
      within := nofun
      counted := nofun
      cleared := nofun }
  exact w j _ some := by
    have none : (Finset.range (d.nIter j)).filter (fun round => ParityCounter.Complete d.modelSize
        ((initial d).training.rounds d w) j round) = ∅ :=
      Finset.filter_eq_empty_iff.mpr fun _ _ all => Nat.not_lt_zero _ (all 0 some)
    exact (congrArg Finset.card none).symm

/-- A worker has printed one mark for every iteration that it has reduced completely, in every state
of a run in which no call ends before its tensor is reduced and no job counts where the cells hold
another. -/
theorem marks_exact (d : Plan) (keys : d.DistinctKeys) :
    ∀ m, Runs.Run (step d) (aligned d) (initial d) m → Exact d m := by
  intro m run
  have kept := run.invariant (fun label m m' before allowed taken =>
    Kept.step keys before allowed taken) (initial_kept d)
  exact kept.exact

theorem marks_exact_one_iteration :
    ∃ m, Runs.Run (step (Training.onePacket 1)) (aligned (Training.onePacket 1))
      (initial (Training.onePacket 1)) m ∧ m.marks = [(0,0)] ∧ Exact (Training.onePacket 1) m := by
  have ends : (Runs.exec (step (Training.onePacket 1)) (aligned (Training.onePacket 1))
      (Training.contributions ++ [Training.packet 0 (.down 0) 1,.resume (.call ⟨0,0,0⟩ 0)])
      (initial (Training.onePacket 1))).map marks = some [(0,0)] := by decide +kernel
  obtain ⟨m,run,marks⟩ := Runs.exists_run_of_exec ends
  exact ⟨m,run,marks,marks_exact _ (Training.onePacket_distinct 1) m run⟩

/-- The same job with a tensor of two chunks, each of one packet. -/
def twoChunks : Plan :=
  { Training.onePacket 1 with
    chunkSize := 1
    size := fun _ => 2
    positive := fun _ => by decide
    sizeFits := fun _ => by decide
    scheduled := true }

/-- Both passes of worker `w` and the first half of the first call. -/
def firstCall (w : Nat) : List Training.Label :=
  [.resume (.job w 0),.elapse w 0,.elapse w 0,.call ⟨w,0,0⟩,.resume (.call ⟨w,0,0⟩ 0)]

/-- Worker 0 prints the mark when half of its only tensor is reduced. -/
theorem first_chunk_marks_iteration :
    ∃ m, Runs.Run (step twoChunks) Runs.anyStep (initial twoChunks) m ∧ m.marks = [(0,0)] ∧
      (m.training.fabric.objs.tensor ⟨0,0,0⟩).allreducedSize = 1 ∧ ¬Exact twoChunks m := by
  have ends : (Runs.exec (step twoChunks) Runs.anyStep
      ([.place 0,.execute 0 0,.execute 1 0] ++ firstCall 0 ++ firstCall 1 ++
        [Training.packet 0 (.up 0) 0,Training.packet 0 (.up 1) 1,Training.packet 0 (.down 0) 1,
          .resume (.call ⟨0,0,0⟩ 0)]) (initial twoChunks)).map
      (fun m => (m.marks,(m.training.fabric.objs.tensor ⟨0,0,0⟩).allreducedSize,
        ParityCounter.numComplete twoChunks.modelSize (m.training.rounds twoChunks 0) 1 0)) =
      some ([(0,0)],1,0) := by decide +kernel
  obtain ⟨m,run,view⟩ := Runs.exists_run_of_exec ends
  obtain ⟨marks,view⟩ := Prod.mk.inj view
  obtain ⟨half,complete⟩ := Prod.mk.inj view
  refine ⟨m,run,marks,half,fun exact => ?_⟩
  have one := exact 0 0 ⟨by decide,by decide⟩ (by decide)
  rw [marks] at one
  exact absurd (one.trans complete) (by decide)

end Marking
end CloudSim
