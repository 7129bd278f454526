import CloudSim.SincroniaWeights

/-! When the weights of `Sincronia` are exact. While a tensor is reduced, no worker is past its
layer in a forward pass, so `fp_layer` is the layer before it whenever its progress is subtracted. -/
namespace CloudSim

namespace Pipelined
variable {work : Workload} {chunkSize : Nat} {groups : Nat → Nat → Group}
  {early : Nat → Nat → List Nat} {c : Clients}

/-- The end of a call does not take a tensor back to an earlier iteration. -/
theorem iter_le (pipe : Pipelined work chunkSize groups early c) (called : call ∈ c.calls)
    (layer : l < (work.model i).length) (worker : v ∈ work.widsAllocated i) :
    (c.tensor ⟨v,i,l⟩).iter ≤ ((c.answer chunkSize call).tensor ⟨v,i,l⟩).iter := by
  obtain ⟨j,t,w,chunks,waiter,outstanding,_,phase,_,_,answered⟩ := pipe.answer called
  have before : (c.tensor ⟨v,i,l⟩).iter = _ :=
    (pipe.consistent.represents i l layer).iter v worker
  have after : ((c.answer chunkSize call).tensor ⟨v,i,l⟩).iter = _ :=
    (answered.consistent.represents i l layer).iter v worker
  rw [before,after]
  by_cases same : i = j ∧ l = t
  · obtain ⟨rfl,rfl⟩ := same
    rw [setGroup_same,Group.answered_turn]
    apply Nat.add_le_add_left
    apply Bool.toNat_le_toNat
    exact Group.answered_ended _ _ _ _ _ _ _ phase
  · rw [setGroup_other same]

end Pipelined

namespace Sincronia
variable {cfg : Config} {topo : Topology} {work : Workload} {s t : Sincronia}

/-- Every worker still waits for the allreduce of a tensor that is to be scheduled. -/
theorem Inv.collected_behind (inv : Inv cfg work s) (distinct : work.DistinctCutKeys cfg)
    (idle : s.clients.calls = []) (member : r ∈ s.collected cfg work)
    (worker : u ∈ work.widsAllocated r.job) : s.clients.enqueued ⟨u,r.job,r.tensorId⟩ =
      (s.clients.tensor ⟨u,r.job,r.tensorId⟩).iter + 1 := by
  obtain ⟨groups,early,sound,_⟩ := inv.sound
  obtain ⟨s',pqueues,weights,groups',early',collects,sound',_,_,kept,_,waits⟩ :=
    collect_sound distinct s.readyPqueues inv.heaped.distinct sound idle inv.heaped.counted
  have inside : r ∈ weights := by
    unfold collected at member
    rw [collects] at member
    split at member
    · cases member
    · exact member
  obtain ⟨layer,_,full,chunks,phase⟩ := waits r inside
  have rep := sound'.pipelined.consistent.represents _ _ layer
  have enqueued := sound'.pipelined.enqueued_eq layer worker
  have iter : (s'.clients.tensor ⟨u,r.job,r.tensorId⟩).iter = _ := rep.iter u worker
  rw [sound'.pipelined.early_nil layer phase,if_pos (rep.mem_arrived full worker)] at enqueued
  rw [Group.ended,phase,Bool.toNat_false] at iter
  rw [kept.clients] at enqueued iter
  rw [enqueued,iter]
  rfl

/-- Every worker still waits for the allreduce of a tensor whose weight is computed. -/
theorem Inv.weighed_behind {l : Label} (inv : Inv cfg work s) (distinct : work.DistinctCutKeys cfg)
    (may : ∀ q order, l = .enqueue q order → s.clients.MayEnqueue work q)
    (member : r ∈ s.weighed cfg work l) (worker : u ∈ work.widsAllocated r.job)
    (apart : ∀ q order, l = .enqueue q order → ¬(u = q.machine ∧ r.job = q.job)) :
    s.clients.enqueued ⟨u,r.job,r.tensorId⟩ =
      (s.clients.tensor ⟨u,r.job,r.tensorId⟩).iter + 1 := by
  cases l with
  | enqueue q order =>
    simp only [weighed] at member
    split at member
    · rename_i starts
      have ready := inv.ready distinct (may q order rfl) starts.1
      have idle := ready.awaited.idle_of_stopped ready.wellFormed starts.2
      have behind := ready.collected_behind distinct idle member worker
      have other : (⟨u,r.job,r.tensorId⟩ : TensorRef) ≠ q := fun same =>
        apart q order rfl (same ▸ ⟨rfl,rfl⟩)
      simpa [Sincronia.ready,push,Clients.enqueue,other] using behind
    · cases member
  | resume id order =>
    simp only [weighed] at member
    split at member
    · rename_i known
      split at member
      · rename_i ended
        exact inv.collected_behind distinct (inv.awaited.idle_of_resume inv.wellFormed known ended)
          member worker
      · cases member
    · cases member
  | complete call => cases member
  | finish w j => cases member

end Sincronia

namespace Passes
variable {cfg : Config} {topo : Topology} {work : Workload} {s t : Passes}

/-- A worker has passed the forward locks of the layers behind it, whose allreduces of the earlier
iterations have ended. -/
def Ahead (work : Workload) (s : Passes) : Prop :=
  ∀ j, 1 < work.numWorkersAllocated j → ∀ w ∈ work.widsAllocated j, ∀ iter layer,
    s.pass w j = .forward iter layer →
      ∀ t < layer, iter ≤ (s.sched.clients.tensor ⟨w,j,t⟩).iter

theorem forward_frame (taken : s.forward work w j = some t) :
    t.sched = s.sched ∧ t.weights = s.weights := by
  unfold forward at taken
  split at taken
  · split at taken <;> cases taken
    exact ⟨rfl,rfl⟩
  · cases taken

theorem iterate_forward (head : iterate work j iter = .forward i layer) : layer = 0 := by
  unfold iterate at head
  split at head <;> cases head
  rfl

namespace Ahead

theorem frame (ahead : Ahead work s) (regular : Regular cfg work s) (pass : t.pass = s.pass)
    (iter : ∀ w j l, w ∈ work.widsAllocated j → l < (work.model j).length →
      (s.sched.clients.tensor ⟨w,j,l⟩).iter ≤ (t.sched.clients.tensor ⟨w,j,l⟩).iter) :
    Ahead work t := by
  intro j several w worker i layer here l below
  rw [pass] at here
  obtain ⟨wellFormed,_⟩ := regular.passed j several w worker
  rw [here] at wellFormed
  have inside := wellFormed.2
  exact (ahead j several w worker i layer here l below).trans (iter w j l worker (by omega))

theorem forward (ahead : Ahead work s) (taken : s.forward work w j = some t) : Ahead work t := by
  unfold Passes.forward at taken
  split at taken
  case h_2 => cases taken
  rename_i iter layer here
  split at taken
  case isFalse => cases taken
  rename_i ready
  obtain ⟨worker,several,free⟩ := ready
  cases taken
  intro i many v member k next now l below
  by_cases same : v = w ∧ i = j
  · obtain ⟨rfl,rfl⟩ := same
    rw [setPass_same] at now
    split at now <;> cases now
    rcases Nat.lt_succ_iff_lt_or_eq.mp below with earlier | rfl
    · exact ahead i several v worker iter layer here l earlier
    · exact free
  · rw [setPass_other same] at now
    exact ahead i many v member k next now l below

theorem backward (ahead : Ahead work s) {sched : Sincronia}
    (tensor : sched.clients.tensor = s.sched.clients.tensor) (weights : List Weighed) :
    Ahead work ({ s with sched := sched, weights := weights }.setPass w j
      (if layer = 0 then iterate work j (iter + 1) else .backward iter layer)) := by
  intro i many v member k next now l below
  by_cases same : v = w ∧ i = j
  · obtain ⟨rfl,rfl⟩ := same
    rw [setPass_same] at now
    split at now
    · rw [iterate_forward now] at below
      cases below
    · cases now
  · rw [setPass_other same] at now
    rw [setPass_sched,tensor]
    exact ahead i many v member k next now l below

end Ahead

structure Locked (cfg : Config) (work : Workload) (s : Passes) : Prop where
  inv : Sincronia.Inv cfg work s.sched
  regular : Regular cfg work s
  ahead : Ahead work s

theorem initial_locked (cfg : Config) (work : Workload) : Locked cfg work (initial work) where
  inv := Sincronia.initial_inv cfg work
  regular := initial_regular cfg work
  ahead j _ w _ iter layer here t below := by
    rw [iterate_forward here] at below
    cases below

theorem step_locked (distinct : work.DistinctCutKeys cfg) (positive : 0 < cfg.chunkSize)
    (fits : work.ChunksFit cfg)
    (small : ∀ j, 1 < work.numWorkersAllocated j → (work.model j).length < 2^31)
    (l : Label) (s t : Passes) (locked : Locked cfg work s) (allowed : Runs.anyStep l s)
    (taken : step cfg topo work l s = some t) : Locked cfg work t := by
  have regular := step_regular small l s t locked.regular allowed taken
  have kept (l : Sincronia.Label) (sched : Sincronia)
      (stepped : Sincronia.step cfg topo work l s.sched = some sched) :
      Sincronia.Inv cfg work sched :=
    Sincronia.step_inv distinct positive fits l _ _ locked.inv trivial stepped
  cases l with
  | forward w j =>
    have sched := (forward_frame taken).1
    exact ⟨sched ▸ locked.inv,regular,locked.ahead.forward taken⟩
  | backward w j order =>
    simp only [step] at taken
    split at taken
    · rename_i iter layer here
      obtain ⟨s',scheduled,taken⟩ := Option.bind_eq_some_iff.mp taken
      cases taken
      obtain ⟨sched,stepped,rfl⟩ := schedule_some scheduled
      refine ⟨kept _ _ stepped,regular,locked.ahead.backward ?_ _⟩
      simp only [Sincronia.step] at stepped
      split at stepped
      · exact (Sincronia.enqueue_frame stepped).1
      · cases stepped
    · cases taken
  | complete call =>
    obtain ⟨sched,stepped,rfl⟩ := schedule_some taken
    refine ⟨kept _ _ stepped,regular,locked.ahead.frame locked.regular rfl fun w j l worker layer => ?_⟩
    obtain ⟨clients,completed,stepped⟩ := Option.bind_eq_some_iff.mp stepped
    cases stepped
    obtain ⟨called,rfl⟩ := Clients.complete_some completed
    obtain ⟨groups,early,sound,_⟩ := locked.inv.sound
    exact sound.pipelined.iter_le called layer worker
  | resume id order =>
    obtain ⟨sched,stepped,rfl⟩ := schedule_some taken
    refine ⟨kept _ _ stepped,regular,locked.ahead.frame locked.regular rfl fun w j l _ _ => ?_⟩
    exact le_of_eq (congrArg Tensor.iter (congrFun (Sincronia.resume_frame stepped).tensor _).symm)
  | finish w j =>
    simp only [step] at taken
    split at taken
    · obtain ⟨sched,stepped,rfl⟩ := schedule_some taken
      refine ⟨kept _ _ stepped,regular,locked.ahead.frame locked.regular rfl fun v i l _ _ => ?_⟩
      simp only [Sincronia.step] at stepped
      split at stepped
      · cases stepped
        exact le_rfl
      · cases stepped
    · cases taken

def Enqueues (work : Workload) (s : Passes) (l : Sincronia.Label) : Prop :=
  ∀ q order, l = .enqueue q order → s.sched.clients.MayEnqueue work q ∧
    ∃ iter, s.pass q.machine q.job = .backward iter (q.tensorId + 1)

/-- A forward pass has set `fp_layer` before any weight of the job is computed. -/
theorem Regular.weighed_written (regular : Regular cfg work s) (enqueues : Enqueues work s l)
    (member : r ∈ s.sched.weighed cfg work l) : work.Allocates r ∧
      1 < work.numWorkersAllocated r.job ∧ 0 < work.nIter r.job ∧ ∃ f, Written work s r.job f := by
  have known : work.Allocates r ∧ 1 < work.numWorkersAllocated r.job ∧ 0 < work.nIter r.job ∧
      s.pass r.machine r.job ≠ iterate work r.job 0 := by
    rcases Sincronia.queued_of_weighed member with queued | ⟨order,same⟩
    · obtain ⟨allocated,several,some⟩ := regular.queued r queued
      obtain ⟨wellFormed,counts⟩ := regular.passed r.job several r.machine allocated.1
      have count : s.sched.clients.enqueued r = _ := counts r.tensorId allocated.2
      have most := Pass.passed_le wellFormed r.tensorId
      refine ⟨allocated,several,by omega,fun fresh => ?_⟩
      rw [fresh,Pass.iterate_passed (Nat.zero_le _) allocated.2] at count
      omega
    · obtain ⟨⟨allocated,several,left,_⟩,iter,here⟩ := enqueues r order same
      refine ⟨allocated,several,by omega,fun fresh => ?_⟩
      exact iterate_ne_backward _ _ (fresh.symm.trans here)
  obtain ⟨allocated,several,left,begun⟩ := known
  refine ⟨allocated,several,left,(regular.written r.job several).resolve_right fun fresh => ?_⟩
  exact begun (fresh r.machine allocated.1)

/-- If the progress of a tensor is subtracted, it is from the size of the layer before it. -/
theorem Locked.previous (locked : Locked cfg work s) (distinct : work.DistinctCutKeys cfg)
    (enqueues : Enqueues work s l) (member : r ∈ s.sched.weighed cfg work l)
    (written : Written work s r.job f) (behind : r.tensorId ≤ (1 + f) % (work.model r.job).length) :
    f = work.previous r.job r.tensorId ∧ min r.tensorId 1 < work.nIter r.job := by
  obtain ⟨allocated,several,left,_⟩ := locked.regular.weighed_written enqueues member
  obtain ⟨valid,_,writer⟩ := written
  by_cases last : f + 1 < (work.model r.job).length
  · obtain ⟨u,worker,iter,here⟩ := writer last
    obtain ⟨wellFormed,counts⟩ := locked.regular.passed r.job several u worker
    rw [here] at wellFormed counts
    have enqueued : s.sched.clients.enqueued ⟨u,r.job,r.tensorId⟩ = iter := counts _ allocated.2
    have waits := locked.inv.weighed_behind distinct (fun q order same => (enqueues q order same).1)
      member worker fun q order same equal => by
        obtain ⟨_,k,backward⟩ := enqueues q order same
        rw [← equal.1,← equal.2,here] at backward
        cases backward
    have more := wellFormed.1
    rw [Nat.mod_eq_of_lt (by omega)] at behind
    -- the writer holds the forward locks of the layers up to `f`, which is not so for the tensor
    have next : ¬r.tensorId < f + 1 := fun below => by
      have ended := locked.ahead r.job several u worker iter (f + 1) here r.tensorId below
      omega
    have same : r.tensorId = f + 1 := by omega
    refine ⟨?_,by omega⟩
    rw [Workload.previous,if_neg (by omega)]
    omega
  · have length : 1 + f = (work.model r.job).length := by omega
    rw [length,Nat.mod_self] at behind
    have first := Nat.le_zero.mp behind
    rw [first,Workload.previous,if_pos rfl]
    omega

/-- What a tensor has reduced between two chunks is at most what it has before the last one. -/
theorem Regular.reduced_le (regular : Regular cfg work s) (positive : 0 < cfg.chunkSize)
    (r : TensorRef) : (s.sched.clients.tensor r).allreducedSize ≤
      cfg.beforeLast (work.size r.job r.tensorId) := by
  obtain ⟨n,reduced,inside⟩ := regular.reduced r
  rw [reduced]
  apply Nat.mul_le_mul_right
  rcases inside with rfl | below
  · exact Nat.zero_le _
  · apply (Nat.le_div_iff_mul_le positive).mpr
    omega

/-- Before its last chunk, a tensor has reduced at most the size of the layer before it, or at most
the size of any layer. -/
def WeightsFit (cfg : Config) (work : Workload) : Prop :=
  (∀ j, 1 < work.numWorkersAllocated j → (work.model j).length < 2^31) ∧
  ((work.DistinctCutKeys cfg ∧ work.ChunksFit cfg ∧
      ∀ j, 1 < work.numWorkersAllocated j → ∀ t < (work.model j).length, min t 1 < work.nIter j →
        cfg.beforeLast (work.size j t) ≤ work.size j (work.previous j t)) ∨
    ∀ j, 1 < work.numWorkersAllocated j → ∀ t < (work.model j).length,
      ∀ k < (work.model j).length, cfg.beforeLast (work.size j t) ≤ work.size j k)

/-- All weights so far. -/
def Exact (work : Workload) (s : Passes) : Prop := ∀ x ∈ s.weights, x.Exact work

/-- A step computes exact weights if the subtractions of the state do not wrap around. -/
theorem Exact.step (exact : Exact work s) (regular : Regular cfg work s)
    (small : ∀ j, 1 < work.numWorkersAllocated j → (work.model j).length < 2^31)
    (enough : ∀ l r f, Enqueues work s l → r ∈ s.sched.weighed cfg work l → Written work s r.job f →
      r.tensorId ≤ (1 + f) % (work.model r.job).length →
      (s.sched.clients.tensor r).allreducedSize ≤ work.size r.job f)
    (taken : step cfg topo work l s = some t) : Exact work t := by
  have schedules (l : Sincronia.Label) (t : Passes) (enqueues : Enqueues work s l)
      (taken : s.schedule cfg topo work l = some t) : Exact work t := by
    obtain ⟨sched,_,rfl⟩ := schedule_some taken
    intro x member
    rcases List.mem_append.mp member with old | new
    · exact exact x old
    · obtain ⟨r,weighed,rfl⟩ := List.mem_map.mp new
      obtain ⟨allocated,several,_,f,written⟩ := regular.weighed_written enqueues weighed
      rw [written.2.1]
      exact Sincronia.getWeight_exact written.1 (small _ several)
        (enough l r f enqueues weighed written)
  cases l with
  | forward w j =>
    have weights := (forward_frame taken).2
    intro x member
    exact exact x (weights ▸ member)
  | backward w j order =>
    simp only [Passes.step] at taken
    split at taken
    · rename_i iter layer here
      obtain ⟨s',scheduled,taken⟩ := Option.bind_eq_some_iff.mp taken
      cases taken
      refine schedules _ s' (fun q order same => ?_) scheduled
      cases same
      obtain ⟨sched,stepped,_⟩ := schedule_some scheduled
      simp only [Sincronia.step] at stepped
      split at stepped
      · rename_i may
        exact ⟨may,iter,here⟩
      · cases stepped
    · cases taken
  | complete call => exact schedules _ t (fun _ _ same => by cases same) taken
  | resume id order => exact schedules _ t (fun _ _ same => by cases same) taken
  | finish w j =>
    simp only [Passes.step] at taken
    split at taken
    · exact schedules _ t (fun _ _ same => by cases same) taken
    · cases taken

/-- In every run of a workload whose chunks fit, all weights are exact. -/
theorem weights_exact (cfg : Config) (topo : Topology) (work : Workload)
    (positive : 0 < cfg.chunkSize) (fit : WeightsFit cfg work) (s : Passes)
    (run : Runs.Run (step cfg topo work) Runs.anyStep (initial work) s) : Exact work s := by
  have none : Exact work (initial work) := fun x member => by cases member
  obtain ⟨small,⟨distinct,fits,previous⟩ | all⟩ := fit
  · have preserved (l : Label) (s t : Passes) (known : Locked cfg work s ∧ Exact work s)
        (allowed : Runs.anyStep l s) (taken : step cfg topo work l s = some t) :
        Locked cfg work t ∧ Exact work t := by
      obtain ⟨locked,exact⟩ := known
      refine ⟨step_locked distinct positive fits small l s t locked allowed taken,
        exact.step locked.regular small ?_ taken⟩
      intro l r f enqueues member written behind
      obtain ⟨⟨_,layer⟩,several,_⟩ := locked.regular.weighed_written enqueues member
      obtain ⟨rfl,iters⟩ := locked.previous distinct enqueues member written behind
      exact (locked.regular.reduced_le positive r).trans (previous r.job several _ layer iters)
    exact (run.invariant preserved ⟨initial_locked cfg work,none⟩).2
  · have preserved (l : Label) (s t : Passes) (known : Regular cfg work s ∧ Exact work s)
        (allowed : Runs.anyStep l s) (taken : step cfg topo work l s = some t) :
        Regular cfg work t ∧ Exact work t := by
      obtain ⟨regular,exact⟩ := known
      refine ⟨step_regular small l s t regular allowed taken,exact.step regular small ?_ taken⟩
      intro l r f enqueues member written _
      obtain ⟨⟨_,layer⟩,several,_⟩ := regular.weighed_written enqueues member
      exact (regular.reduced_le positive r).trans (all r.job several _ layer f written.1)
    exact (run.invariant preserved ⟨initial_regular cfg work,none⟩).2

theorem oneLayer_weightsFit : WeightsFit oneLayerConfig oneLayer := by
  have one (j : Nat) : (oneLayer.model j).length ≤ 1 := by
    by_cases first : j = 0 <;> simp [oneLayer,first]
  refine ⟨fun j _ => ?_,Or.inl ⟨oneLayer_distinctCutKeys,oneLayer_chunksFit,fun j _ t layer _ => ?_⟩⟩
  · have few := one j
    omega
  · have few := one j
    have first : t = 0 := by omega
    subst first
    have same : oneLayer.previous j 0 = 0 := by
      rw [Workload.previous,if_pos rfl]
      omega
    rw [same]
    exact (Nat.div_mul_le_self _ _).trans (Nat.sub_le _ _)

/-- The second weight is that of what the first chunk leaves. -/
theorem weights_exact_two_chunks :
    ∃ s, s.weights = [⟨⟨1,0,0⟩,0,0,some 3⟩,⟨⟨1,0,0⟩,0,2,some 1⟩] ∧ Exact oneLayer s := by
  have taken : (Runs.exec (step oneLayerConfig .custom oneLayer) Runs.anyStep
      [.resume 0 [],.forward 0 0,.forward 1 0,.backward 0 0 [],.backward 1 0 [],
        .complete ⟨1,⟨⟨0,0,0⟩,0⟩⟩,.complete ⟨1,⟨⟨1,0,0⟩,0⟩⟩,.resume 1 []]
      (initial oneLayer)).map weights =
      some [⟨⟨1,0,0⟩,0,0,some 3⟩,⟨⟨1,0,0⟩,0,2,some 1⟩] := by decide
  obtain ⟨s,run,weights⟩ := Runs.exists_run_of_exec taken
  exact ⟨s,weights,weights_exact _ _ _ (by decide) oneLayer_weightsFit s run⟩

def alexnetConfig : Config := ⟨1,1,20000000,fun _ t => t⟩

/-- Two workers and two iterations of the first model of `Job`. -/
def alexnet : Workload where
  widsAllocated _ := [0,1]
  model j := if j = 0 then [330688,39891840,16781312,4097000] else []
  nIter _ := 2
  widsDistinct := oneLayer.widsDistinct
  sizesFit j := by by_cases first : j = 0 <;> simp [first]
  itersFit := oneLayer.itersFit

/-- `fp_layer` is 0 while the second tensor, larger than the first, has reduced one chunk. -/
theorem alexnet_weight_wraps : ∃ s,
    Runs.Run (step alexnetConfig .custom alexnet) Runs.anyStep (initial alexnet) s ∧
    ⟨⟨1,0,1⟩,0,20000000,some 18446744073689882304⟩ ∈ s.weights ∧ ¬Exact alexnet s := by
  have taken : (Runs.exec (step alexnetConfig .custom alexnet) Runs.anyStep
      [.resume 0 [],.forward 0 0,.forward 0 0,.forward 0 0,.forward 0 0,
        .forward 1 0,.forward 1 0,.forward 1 0,.forward 1 0,
        .backward 0 0 [],.backward 1 0 [],.backward 0 0 [],.backward 1 0 [],
        .backward 0 0 [],.backward 1 0 [],.backward 0 0 [],.backward 1 0 [],
        .complete ⟨1,⟨⟨0,0,3⟩,0⟩⟩,.complete ⟨1,⟨⟨1,0,3⟩,0⟩⟩,.resume 1 [],
        .complete ⟨1,⟨⟨0,0,0⟩,0⟩⟩,.complete ⟨1,⟨⟨1,0,0⟩,0⟩⟩,.resume 1 [],
        .complete ⟨1,⟨⟨0,0,1⟩,0⟩⟩,.complete ⟨1,⟨⟨1,0,1⟩,0⟩⟩,.forward 0 0,.resume 1 []]
      (initial alexnet)).map (fun s => s.weights.getLast?) =
      some (some ⟨⟨1,0,1⟩,0,20000000,some 18446744073689882304⟩) := by decide +kernel
  obtain ⟨s,run,last⟩ := Runs.exists_run_of_exec taken
  have member := List.mem_of_getLast? last
  refine ⟨s,run,member,fun exact => ?_⟩
  obtain ⟨layer,size,weight,known,here,wraps,difference,_⟩ := exact _ member
  have first : layer = 0 := Int.ofNat.inj here.symm
  subst first
  cases Option.some.inj known
  cases Option.some.inj wraps
  have behind : ¬(1 + 0) % (alexnet.model 0).length < 1 := by decide
  rw [if_neg behind] at difference
  omega

end Passes

end CloudSim
