import CloudSim.SincroniaBookkeeping

/-! The weights of `Sincronia`, which depend on how far the workers of a job are in their forward
passes. -/
namespace CloudSim

/-- An integer converted to a 64-bit unsigned. -/
def u64OfInt (z : Int) : Nat := (z % 2^64).toNat

namespace Sincronia

/-- `get_weight`, before the conversion to `double`. `none` is an overflow of `1 + fp_layer` or an
index past the end of the model. -/
def getWeight (work : Workload) (fpLayer : Int) (r : TensorRef) (t : Tensor) : Option Nat :=
  let model := work.model r.job
  if 2^31 ≤ fpLayer + 1 then none
  else if u64OfInt (1 + fpLayer) % model.length < r.tensorId then model[u64OfInt fpLayer]?
  else model[u64OfInt fpLayer]?.map fun size => sub64 size t.allreducedSize

/-- The tensors on top of the ready queues, once the finished ones are cleaned out. -/
def collected (cfg : Config) (work : Workload) (s : Sincronia) : List TensorRef :=
  if s.readyPqueuesAllEmpty then []
  else (collect cfg work s.readyPqueues s).elim [] fun result => result.2.2

/-- The tensors for which a step calls `get_weight`. -/
def weighed (cfg : Config) (work : Workload) (s : Sincronia) : Label → List TensorRef
  | .enqueue r _ =>
    let pushed := s.push cfg r
    if (pushed.queue.get (r.key cfg)).length % work.numWorkersAllocated r.job = 0 ∧
        s.loop.loopIsRunning = false then
      (pushed.ready r).collected cfg work
    else []
  | .resume id _ =>
    match s.loop.instances id with
    | some (.reducing []) => if s.clients.awaits id = false then s.collected cfg work else []
    | _ => []
  | _ => []

end Sincronia

/-- How far `execute_job` is: it requests the forward lock of a layer, or the layers below `left`
are still ahead of its backward pass, or all iterations are behind it. -/
inductive Pass where
  | forward (iter layer : Nat)
  | backward (iter left : Nat)
  | ended
  deriving DecidableEq, Repr

/-- What a call of `get_weight` read and returned. -/
structure Weighed where
  tensor : TensorRef
  fpLayer : Int
  allreducedSize : Nat
  weight : Option Nat
  deriving DecidableEq, Repr

/-- Jobs of several workers under `Sincronia`. `weights` is history. -/
structure Passes where
  sched : Sincronia
  pass : Nat → Nat → Pass
  fpLayer : Nat → Int := fun _ => -1
  weights : List Weighed := []

namespace Passes

inductive Label where
  | forward (w j : Nat)
  | backward (w j : Nat) (order : List Nat)
  | complete (call : Call)
  | resume (id : Nat) (order : List Nat)
  | finish (w j : Nat)

section step
variable (cfg : Config) (topo : Topology) (work : Workload)

/-- The head of the loop over the iterations. -/
def iterate (j iter : Nat) : Pass :=
  if iter < work.nIter j ∧ work.model j ≠ [] then .forward iter 0 else .ended

def initial : Passes where
  sched := Sincronia.initial work
  pass _ j := iterate work j 0

def setPass (s : Passes) (w j : Nat) (p : Pass) : Passes :=
  { s with pass := Function.update s.pass w (Function.update (s.pass w) j p) }

/-- The forward lock is granted once the allreduces of the earlier iterations have ended. -/
def forward (s : Passes) (w j : Nat) : Option Passes :=
  match s.pass w j with
  | .forward iter layer =>
    if w ∈ work.widsAllocated j ∧ 1 < work.numWorkersAllocated j ∧
        iter ≤ (s.sched.clients.tensor ⟨w,j,layer⟩).iter then
      some ({ s with fpLayer := Function.update s.fpLayer j (intOf layer) }.setPass w j
        (if layer + 1 < (work.model j).length then .forward iter (layer + 1)
          else .backward iter (work.model j).length))
    else none
  | _ => none

/-- A step of the scheduler, with the weights that it computes. -/
def schedule (s : Passes) (l : Sincronia.Label) : Option Passes := do
  let sched ← s.sched.step cfg topo work l
  return { s with
    sched := sched
    weights := s.weights ++ (s.sched.weighed cfg work l).map fun r =>
      let tensor := s.sched.clients.tensor r
      ⟨r,s.fpLayer r.job,tensor.allreducedSize,
        Sincronia.getWeight work (s.fpLayer r.job) r tensor⟩ }

def step (l : Label) (s : Passes) : Option Passes :=
  match l with
  | .forward w j => s.forward work w j
  | .backward w j order =>
    match s.pass w j with
    | .backward iter (layer + 1) => do
      let s ← s.schedule cfg topo work (.enqueue ⟨w,j,layer⟩ order)
      return s.setPass w j (if layer = 0 then iterate work j (iter + 1) else .backward iter layer)
    | _ => none
  | .complete call => s.schedule cfg topo work (.complete call)
  | .resume id order => s.schedule cfg topo work (.resume id order)
  | .finish w j =>
    if s.pass w j = .ended then s.schedule cfg topo work (.finish w j) else none

end step

end Passes

namespace Workload

/-- The layer before this one, where the last layer is before the first. -/
def previous (work : Workload) (j t : Nat) : Nat :=
  if t = 0 then (work.model j).length - 1 else t - 1

end Workload

def Config.beforeLast (cfg : Config) (size : Nat) : Nat := (size - 1) / cfg.chunkSize * cfg.chunkSize

namespace Weighed

/-- The weight is the integer that `get_weight` means, between 0 and the size of a layer. -/
def Exact (work : Workload) (x : Weighed) : Prop :=
  let model := work.model x.tensor.job
  ∃ layer size weight : Nat, model[layer]? = some size ∧ x.fpLayer = layer ∧ x.weight = some weight ∧
    (weight : Int) = (if (1 + layer) % model.length < x.tensor.tensorId then (size : Int)
      else size - x.allreducedSize) ∧
    ∃ largest ∈ model, weight ≤ largest

end Weighed

namespace Sincronia
variable {cfg : Config} {topo : Topology} {work : Workload} {s t : Sincronia}

theorem u64OfInt_of_lt {n : Nat} (bound : n < 2^64) : u64OfInt n = n := by
  unfold u64OfInt
  omega

/-- In the branch with the subtraction, the weight is exact if it does not wrap around. -/
theorem getWeight_exact {r : TensorRef} {tensor : Tensor} (layer : f < (work.model r.job).length)
    (small : (work.model r.job).length < 2^31)
    (enough : r.tensorId ≤ (1 + f) % (work.model r.job).length →
      tensor.allreducedSize ≤ work.size r.job f) :
    Weighed.Exact work ⟨r,f,tensor.allreducedSize,getWeight work f r tensor⟩ := by
  have known : (work.model r.job)[f]? = some (work.size r.job f) := by
    rw [Workload.size,List.getD_eq_getElem?_getD,List.getElem?_eq_getElem layer]
    rfl
  have member : work.size r.job f ∈ work.model r.job := List.mem_of_getElem? known
  have next : u64OfInt (1 + (f : Int)) = 1 + f := by
    have sum := u64OfInt_of_lt (n := 1 + f) (by omega)
    simpa using sum
  have here : u64OfInt (f : Int) = f := u64OfInt_of_lt (by omega)
  have bounded : ¬(2^31 : Int) ≤ (f : Int) + 1 := by omega
  unfold getWeight
  dsimp only
  rw [if_neg bounded,next,here,known]
  by_cases ahead : (1 + f) % (work.model r.job).length < r.tensorId
  · refine ⟨f,_,work.size r.job f,known,rfl,if_pos ahead,?_,_,member,Nat.le_refl _⟩
    rw [if_pos ahead]
  · have fits := enough (Nat.not_lt.mp ahead)
    refine ⟨f,_,work.size r.job f - tensor.allreducedSize,known,rfl,?_,?_,_,member,
      Nat.sub_le _ _⟩
    · rw [if_neg ahead,Option.map_some,sub64_of_le fits (work.size_fits _ _)]
    · rw [if_neg ahead]
      exact Int.ofNat_sub fits

/-! What the loop and the enqueues change. -/

theorem cleanOut_frame {after : Sincronia × List TensorRef}
    (cleaned : cleanOut cfg work fuel s pq = some after) :
    after.1.clients = s.clients ∧ after.2 ⊆ pq := by
  induction fuel generalizing s pq with
  | zero => cases cleaned; exact ⟨rfl,List.Subset.refl _⟩
  | succ fuel ih =>
    simp only [cleanOut] at cleaned
    split at cleaned
    · cases cleaned; exact ⟨rfl,List.Subset.refl _⟩
    · rename_i top
      split at cleaned
      · split at cleaned
        · obtain ⟨clients,inside⟩ := ih cleaned
          refine ⟨clients,fun r member => ?_⟩
          obtain ⟨first,rest,rfl⟩ := List.exists_cons_of_ne_nil
            (fun empty : pq = [] => by simp [empty,Heap.top] at top)
          have perm := Heap.pop_perm s.clients.customCompare first rest
          exact perm.mem_iff.mp (List.mem_cons_of_mem _ (inside member))
        · cases cleaned
      · cases cleaned; exact ⟨rfl,List.Subset.refl _⟩

def Within (after before : List (Nat × List TensorRef)) : Prop :=
  ∀ entry ∈ after, ∃ pq, (entry.1,pq) ∈ before ∧ entry.2 ⊆ pq

theorem collect_frame {pqueues : List (Nat × List TensorRef)}
    (collected : collect cfg work pqueues s = some after) :
    after.1.clients = s.clients ∧ Within after.2.1 pqueues ∧
      ∀ r ∈ after.2.2, ∃ entry ∈ pqueues, r ∈ entry.2 := by
  induction pqueues generalizing s after with
  | nil =>
    cases collected
    exact ⟨rfl,fun _ member => (by cases member),fun _ member => by cases member⟩
  | cons first rest ih =>
    obtain ⟨⟨s',pq⟩,cleaned,collected⟩ := Option.bind_eq_some_iff.mp collected
    obtain ⟨middle,others,collected⟩ := Option.bind_eq_some_iff.mp collected
    cases collected
    obtain ⟨clients,inside⟩ := cleanOut_frame cleaned
    obtain ⟨clients',within,weights⟩ := ih others
    refine ⟨clients'.trans clients,fun entry member => ?_,fun r member => ?_⟩
    · rcases List.mem_cons.mp member with rfl | member
      · exact ⟨_,List.mem_cons_self,inside⟩
      · obtain ⟨q,known,part⟩ := within entry member
        exact ⟨q,List.mem_cons_of_mem _ known,part⟩
    · rcases List.mem_append.mp member with top | later
      · refine ⟨first,List.mem_cons_self,inside ?_⟩
        exact List.mem_of_mem_head? (Option.mem_toList.mp top)
      · obtain ⟨entry,known,here⟩ := weights r later
        exact ⟨entry,List.mem_cons_of_mem _ known,here⟩

structure Frame (s t : Sincronia) : Prop where
  tensor : t.clients.tensor = s.clients.tensor
  enqueued : t.clients.enqueued = s.clients.enqueued
  pqueues : Within t.readyPqueues s.readyPqueues

theorem Within.refl (pqueues : List (Nat × List TensorRef)) : Within pqueues pqueues :=
  fun _ member => ⟨_,member,List.Subset.refl _⟩

theorem serveNext_frame {id : Nat} (served : s.serveNext cfg topo work id result = some after) :
    after.1.clients.tensor = s.clients.tensor ∧ after.1.clients.enqueued = s.clients.enqueued ∧
      after.1.readyPqueues = s.readyPqueues := by
  cases result with
  | nil => cases served; exact ⟨rfl,rfl,rfl⟩
  | cons key rest =>
    obtain ⟨middle,inner,done⟩ := Option.bind_eq_some_iff.mp served
    cases done
    obtain ⟨_,_,inner⟩ := Option.bind_eq_some_iff.mp inner
    obtain ⟨_,_,inner⟩ := Option.bind_eq_some_iff.mp inner
    obtain ⟨u,reduced,inner⟩ := Option.bind_eq_some_iff.mp inner
    cases inner
    have preserved (k : Nat) (before after : Sincronia)
        (same : before.clients.tensor = s.clients.tensor ∧
          before.clients.enqueued = s.clients.enqueued ∧ before.readyPqueues = s.readyPqueues)
        (reduced : reduce cfg id before k = some after) :
        after.clients.tensor = s.clients.tensor ∧ after.clients.enqueued = s.clients.enqueued ∧
          after.readyPqueues = s.readyPqueues := by
      obtain ⟨_,_,reduced⟩ := Option.bind_eq_some_iff.mp reduced
      cases reduced
      exact same
    exact Runs.foldlM_invariant preserved reduced ⟨rfl,rfl,rfl⟩

theorem proceed_frame {id : Nat}
    (proceeded : s.proceed cfg topo work id order result = some after) : Frame s after.1 := by
  unfold proceed at proceeded
  split at proceeded
  · obtain ⟨tensor,enqueued,pqueues⟩ := serveNext_frame proceeded
    exact ⟨tensor,enqueued,pqueues ▸ Within.refl _⟩
  · split at proceeded
    · cases proceeded
      exact ⟨rfl,rfl,Within.refl _⟩
    · obtain ⟨⟨middle,pqueues,weights⟩,collected,proceeded⟩ := Option.bind_eq_some_iff.mp proceeded
      obtain ⟨keys,_,proceeded⟩ := Option.bind_eq_some_iff.mp proceeded
      obtain ⟨clients,within,_⟩ := collect_frame collected
      obtain ⟨tensor,enqueued,same⟩ := serveNext_frame proceeded
      exact ⟨tensor.trans (congrArg _ clients),enqueued.trans (congrArg _ clients),same ▸ within⟩

def Queued (s : Sincronia) (r : TensorRef) : Prop := ∃ entry ∈ s.readyPqueues, r ∈ entry.2

theorem Frame.queued (frame : Frame s t) (known : t.Queued r) : s.Queued r := by
  obtain ⟨entry,member,inside⟩ := known
  obtain ⟨pq,before,part⟩ := frame.pqueues entry member
  exact ⟨_,before,part inside⟩

theorem queued_of_collected (member : r ∈ s.collected cfg work) : s.Queued r := by
  unfold collected at member
  split at member
  · cases member
  · cases result : collect cfg work s.readyPqueues s with
    | none => simp [result] at member
    | some after =>
      rw [result] at member
      exact (collect_frame result).2.2 r member

theorem queued_of_ready (known : (s.ready r).Queued r') : r' = r ∨ s.Queued r' := by
  obtain ⟨entry,member,inside⟩ := known
  simp only [ready] at member
  split at member
  · obtain ⟨old,before,same⟩ := List.mem_map.mp member
    split at same
    · subst same
      rcases List.mem_cons.mp ((Heap.push_perm s.clients.customCompare r old.2).mem_iff.mp inside)
        with new | earlier
      · exact Or.inl new
      · exact Or.inr ⟨old,before,earlier⟩
    · subst same
      exact Or.inr ⟨old,before,inside⟩
  · rcases List.mem_append.mp member with before | new
    · exact Or.inr ⟨entry,before,inside⟩
    · obtain rfl := List.mem_singleton.mp new
      exact Or.inl (List.mem_singleton.mp inside)

theorem queued_of_weighed (member : r ∈ s.weighed cfg work l) :
    s.Queued r ∨ ∃ order, l = .enqueue r order := by
  cases l with
  | enqueue r' order =>
    simp only [weighed] at member
    split at member
    · rcases queued_of_ready (queued_of_collected member) with rfl | before
      · exact Or.inr ⟨order,rfl⟩
      · exact Or.inl before
    · cases member
  | resume id order =>
    simp only [weighed] at member
    split at member
    · split at member
      · exact Or.inl (queued_of_collected member)
      · cases member
    · cases member
  | complete call => cases member
  | finish w j => cases member

theorem enqueue_frame {r : TensorRef} {order : List Nat}
    (taken : s.enqueue cfg topo work order r = some t) :
    t.clients.tensor = s.clients.tensor ∧
      t.clients.enqueued = (s.clients.enqueue r).enqueued ∧
      ∀ r', t.Queued r' → r' = r ∨ s.Queued r' := by
  unfold enqueue at taken
  dsimp only at taken
  split at taken
  · split at taken
    · cases taken
      exact ⟨rfl,rfl,fun r' known => queued_of_ready known⟩
    · obtain ⟨⟨middle,position⟩,proceeded,taken⟩ := Option.bind_eq_some_iff.mp taken
      cases taken
      have frame := proceed_frame proceeded
      refine ⟨frame.tensor,frame.enqueued,fun r' known => ?_⟩
      have before : ((s.push cfg r).ready r).Queued r' := frame.queued known
      exact queued_of_ready before
  · cases taken
    exact ⟨rfl,rfl,fun r' known => Or.inr known⟩

theorem resume_frame {id : Nat} {order : List Nat}
    (taken : step cfg topo work (.resume id order) s = some t) : Frame s t := by
  simp only [step] at taken
  split at taken
  · cases taken
  · cases taken
    exact ⟨rfl,rfl,Within.refl _⟩
  · split at taken
    · obtain ⟨⟨middle,position⟩,proceeded,taken⟩ := Option.bind_eq_some_iff.mp taken
      cases taken
      have frame := proceed_frame proceeded
      exact ⟨frame.tensor,frame.enqueued,frame.pqueues⟩
    · cases taken

end Sincronia

def Pass.passed (work : Workload) (j : Nat) : Pass → Nat → Nat
  | .forward iter _,_ => iter
  | .backward iter left,t => if t < left then iter else iter + 1
  | .ended,_ => work.nIter j

def Pass.WellFormed (work : Workload) (j : Nat) : Pass → Prop
  | .forward iter layer => iter < work.nIter j ∧ layer < (work.model j).length
  | .backward iter left => iter < work.nIter j ∧ 0 < left ∧ left ≤ (work.model j).length
  | .ended => True

namespace Pass
variable {work : Workload} {p : Pass}

theorem passed_le (wellFormed : p.WellFormed work j) (t : Nat) :
    p.passed work j t ≤ work.nIter j := by
  cases p with
  | forward iter layer => exact wellFormed.1.le
  | backward iter left =>
    simp only [passed]
    have := wellFormed.1
    split <;> omega
  | ended => exact le_rfl

theorem iterate_wellFormed (work : Workload) (j iter : Nat) :
    (Passes.iterate work j iter).WellFormed work j := by
  unfold Passes.iterate
  split
  · rename_i more
    exact ⟨more.1,List.length_pos_of_ne_nil more.2⟩
  · trivial

/-- At the head of the loop every layer has been enqueued in each earlier iteration. -/
theorem iterate_passed (le : iter ≤ work.nIter j) (layer : t < (work.model j).length) :
    (Passes.iterate work j iter).passed work j t = iter := by
  unfold Passes.iterate
  split
  · rfl
  · rename_i done
    have some : work.model j ≠ [] := List.ne_nil_of_length_pos (by omega)
    have all : ¬iter < work.nIter j := fun more => done ⟨more,some⟩
    simp only [passed]
    omega

end Pass

namespace Passes
variable {cfg : Config} {topo : Topology} {work : Workload} {s t : Passes}

@[simp] theorem setPass_sched (s : Passes) (w j : Nat) (p : Pass) :
    (s.setPass w j p).sched = s.sched := rfl

@[simp] theorem setPass_fpLayer (s : Passes) (w j : Nat) (p : Pass) :
    (s.setPass w j p).fpLayer = s.fpLayer := rfl

@[simp] theorem setPass_same {p : Pass} : (s.setPass w j p).pass w j = p := by simp [setPass]

theorem setPass_other {p : Pass} (other : ¬(v = w ∧ i = j)) :
    (s.setPass w j p).pass v i = s.pass v i := by
  unfold setPass
  dsimp only
  by_cases worker : v = w
  · subst worker
    rw [Function.update_self,Function.update_of_ne fun job => other ⟨rfl,job⟩]
  · rw [Function.update_of_ne worker]

theorem iterate_ne_backward (work : Workload) (j : Nat) :
    iterate work j iter ≠ .backward i left := by
  unfold iterate
  split <;> intro same <;> cases same

/-- `fp_layer` is a layer, and the last one unless its writer is still in the same forward pass. -/
def Written (work : Workload) (s : Passes) (j f : Nat) : Prop :=
  f < (work.model j).length ∧ s.fpLayer j = f ∧
    (f + 1 < (work.model j).length → ∃ u ∈ work.widsAllocated j, ∃ iter,
      s.pass u j = .forward iter (f + 1))

structure Regular (cfg : Config) (work : Workload) (s : Passes) : Prop where
  size : ∀ r, (s.sched.clients.tensor r).size = work.size r.job r.tensorId
  reduced : ∀ r, ∃ n, (s.sched.clients.tensor r).allreducedSize = n * cfg.chunkSize ∧
    (n = 0 ∨ n * cfg.chunkSize < work.size r.job r.tensorId)
  queued : ∀ r, s.sched.Queued r → work.Allocates r ∧ 1 < work.numWorkersAllocated r.job ∧
    0 < s.sched.clients.enqueued r
  passed : ∀ j, 1 < work.numWorkersAllocated j → ∀ w ∈ work.widsAllocated j,
    (s.pass w j).WellFormed work j ∧ ∀ t < (work.model j).length,
      s.sched.clients.enqueued ⟨w,j,t⟩ = (s.pass w j).passed work j t
  written : ∀ j, 1 < work.numWorkersAllocated j → (∃ f, Written work s j f) ∨
    ∀ w ∈ work.widsAllocated j, s.pass w j = iterate work j 0

theorem initial_regular (cfg : Config) (work : Workload) : Regular cfg work (initial work) where
  size _ := rfl
  reduced _ := ⟨0,(Nat.zero_mul _).symm,Or.inl rfl⟩
  queued r known := by
    obtain ⟨entry,member,_⟩ := known
    cases member
  passed j _ w _ := ⟨Pass.iterate_wellFormed work j 0,fun t layer =>
    (Pass.iterate_passed (Nat.zero_le _) layer).symm⟩
  written j _ := Or.inr fun w _ => rfl

theorem advance_reduced {tensor : Tensor} (fits : size < 2^64) (sized : tensor.size = size)
    (reduced : ∃ n, tensor.allreducedSize = n * cfg.chunkSize ∧ (n = 0 ∨ n * cfg.chunkSize < size)) :
    (Worker.advanceTensor tensor (Worker.allreduceSize cfg.chunkSize tensor)).size = size ∧
    ∃ n, (Worker.advanceTensor tensor (Worker.allreduceSize cfg.chunkSize tensor)).allreducedSize =
      n * cfg.chunkSize ∧ (n = 0 ∨ n * cfg.chunkSize < size) := by
  obtain ⟨n,reduced,inside⟩ := reduced
  obtain ⟨kept,progress,_⟩ := advanceTensor_progress fits sized reduced inside
  refine ⟨kept,?_⟩
  rw [progress]
  by_cases last : Group.Last cfg.chunkSize size n
  · rw [if_pos last]
    exact ⟨0,(Nat.zero_mul _).symm,Or.inl rfl⟩
  · rw [if_neg last]
    simp only [Group.Last,not_or,Nat.not_le] at last
    exact ⟨n + 1,rfl,Or.inr last.2⟩

theorem schedule_some {l : Sincronia.Label} (taken : s.schedule cfg topo work l = some t) :
    ∃ sched, Sincronia.step cfg topo work l s.sched = some sched ∧
      t = { s with
        sched := sched
        weights := s.weights ++ (s.sched.weighed cfg work l).map fun r =>
          ⟨r,s.fpLayer r.job,(s.sched.clients.tensor r).allreducedSize,
            Sincronia.getWeight work (s.fpLayer r.job) r (s.sched.clients.tensor r)⟩ } := by
  obtain ⟨sched,stepped,same⟩ := Option.bind_eq_some_iff.mp taken
  cases same
  exact ⟨sched,stepped,rfl⟩

namespace Regular

theorem frame (regular : Regular cfg work s) (pass : t.pass = s.pass)
    (fpLayer : t.fpLayer = s.fpLayer)
    (enqueued : t.sched.clients.enqueued = s.sched.clients.enqueued)
    (tensor : t.sched.clients.tensor = s.sched.clients.tensor)
    (queued : ∀ r, t.sched.Queued r → s.sched.Queued r) : Regular cfg work t := by
  refine ⟨?_,?_,fun r known => ?_,?_,?_⟩
  · rw [tensor]; exact regular.size
  · rw [tensor]; exact regular.reduced
  · rw [enqueued]; exact regular.queued r (queued r known)
  · rw [pass,enqueued]; exact regular.passed
  · simp only [Written,pass,fpLayer]
    exact regular.written

theorem complete (regular : Regular cfg work s) (call : Call)
    (weights : List Weighed) : Regular cfg work
      { s with
        sched := { s.sched with clients := s.sched.clients.answer cfg.chunkSize call }
        weights := weights } := by
  have advanced (r : TensorRef) := advance_reduced (work.size_fits r.job r.tensorId)
    (regular.size r) (regular.reduced r)
  refine ⟨fun r => ?_,fun r => ?_,regular.queued,regular.passed,regular.written⟩
  · dsimp only
    rw [Clients.answer_tensor]
    split
    · exact (advanced r).1
    · exact regular.size r
  · dsimp only
    rw [Clients.answer_tensor]
    split
    · exact (advanced r).2
    · exact regular.reduced r

theorem forward (regular : Regular cfg work s)
    (small : ∀ j, 1 < work.numWorkersAllocated j → (work.model j).length < 2^31)
    (taken : s.forward work w j = some t) : Regular cfg work t := by
  unfold Passes.forward at taken
  split at taken
  case h_2 => cases taken
  rename_i iter layer here
  split at taken
  case isFalse => cases taken
  rename_i ready
  obtain ⟨worker,several,_⟩ := ready
  cases taken
  obtain ⟨wellFormed,counts⟩ := regular.passed j several w worker
  rw [here] at wellFormed counts
  obtain ⟨left,inside⟩ := wellFormed
  refine ⟨regular.size,regular.reduced,regular.queued,fun i many v member => ?_,fun i many => ?_⟩
  · by_cases same : v = w ∧ i = j
    · obtain ⟨rfl,rfl⟩ := same
      rw [setPass_same]
      split
      · rename_i more
        exact ⟨⟨left,more⟩,counts⟩
      · refine ⟨⟨left,by omega,le_rfl⟩,fun t below => ?_⟩
        rw [Pass.passed,if_pos below]
        exact counts t below
    · rw [setPass_other same]
      exact regular.passed i many v member
  · by_cases same : i = j
    · subst same
      refine Or.inl ⟨layer,inside,?_,fun more => ⟨w,worker,iter,?_⟩⟩
      · have few := small i several
        rw [setPass_fpLayer]
        dsimp only
        rw [Function.update_self]
        exact intOf_of_lt (by omega)
      · rw [setPass_same,if_pos more]
    · have fpLayer : Function.update s.fpLayer j (intOf layer) i = s.fpLayer i :=
        Function.update_of_ne same _ _
      have pass {s : Passes} {p : Pass} (v : Nat) : (s.setPass w j p).pass v i = s.pass v i :=
        setPass_other fun both => same both.2
      simp only [Written,pass,setPass_fpLayer,fpLayer]
      exact regular.written i many

theorem backward (regular : Regular cfg work s)
    (here : s.pass w j = .backward iter (layer + 1))
    (may : s.sched.clients.MayEnqueue work ⟨w,j,layer⟩) {sched : Sincronia}
    (tensor : sched.clients.tensor = s.sched.clients.tensor)
    (enqueued : sched.clients.enqueued = (s.sched.clients.enqueue ⟨w,j,layer⟩).enqueued)
    (queued : ∀ r, sched.Queued r → r = ⟨w,j,layer⟩ ∨ s.sched.Queued r)
    (weights : List Weighed) :
    Regular cfg work ({ s with sched := sched, weights := weights }.setPass w j
      (if layer = 0 then iterate work j (iter + 1) else .backward iter layer)) := by
  obtain ⟨⟨worker,inside⟩,several,_⟩ := may
  obtain ⟨wellFormed,counts⟩ := regular.passed j several w worker
  rw [here] at wellFormed counts
  obtain ⟨left,_,most⟩ := wellFormed
  have more : s.sched.clients.enqueued ⟨w,j,layer⟩ + 1 = iter + 1 := by
    rw [counts layer inside,Pass.passed,if_pos (Nat.lt_succ_self _)]
  refine ⟨?_,?_,fun r known => ?_,fun i many v member => ?_,fun i many => ?_⟩
  · rw [setPass_sched,tensor]; exact regular.size
  · rw [setPass_sched,tensor]; exact regular.reduced
  · rw [setPass_sched,enqueued,Clients.enqueue]
    dsimp only
    by_cases new : r = ⟨w,j,layer⟩
    · subst new
      rw [if_pos rfl]
      exact ⟨⟨worker,inside⟩,several,Nat.succ_pos _⟩
    · rw [if_neg new]
      exact regular.queued r ((queued r known).resolve_left new)
  · rw [setPass_sched,enqueued,Clients.enqueue]
    dsimp only
    by_cases same : v = w ∧ i = j
    · obtain ⟨rfl,rfl⟩ := same
      rw [setPass_same]
      by_cases first : layer = 0
      · subst first
        rw [if_pos rfl]
        refine ⟨Pass.iterate_wellFormed _ _ _,fun t below => ?_⟩
        rw [Pass.iterate_passed left below]
        by_cases again : t = 0
        · subst again
          rw [if_pos rfl,more]
        · rw [if_neg (by simpa using again),counts t below,Pass.passed,if_neg (by omega)]
      · rw [if_neg first]
        refine ⟨⟨left,Nat.pos_of_ne_zero first,by omega⟩,fun t below => ?_⟩
        by_cases again : t = layer
        · subst again
          rw [if_pos rfl,more,Pass.passed,if_neg (Nat.lt_irrefl _)]
        · rw [if_neg (by simpa using again),counts t below,Pass.passed,Pass.passed]
          split <;> split <;> omega
    · rw [setPass_other same]
      obtain ⟨wellFormed,counts⟩ := regular.passed i many v member
      refine ⟨wellFormed,fun t below => ?_⟩
      rw [if_neg fun equal => same ?_,counts t below]
      injection equal with machine job
      exact ⟨machine,job⟩
  · by_cases same : i = j
    · subst same
      rcases regular.written i many with ⟨f,valid,writes,writer⟩ | fresh
      · refine Or.inl ⟨f,valid,writes,fun below => ?_⟩
        obtain ⟨u,member,k,ahead⟩ := writer below
        refine ⟨u,member,k,?_⟩
        rw [setPass_other fun both => ?_]
        · exact ahead
        · rw [both.1,here] at ahead
          cases ahead
      · exact absurd ((fresh w worker).symm.trans here) (iterate_ne_backward _ _)
    · have pass {s : Passes} {p : Pass} (v : Nat) : (s.setPass w j p).pass v i = s.pass v i :=
        setPass_other fun both => same both.2
      simp only [Written,pass,setPass_fpLayer]
      exact regular.written i many

end Regular

theorem step_regular
    (small : ∀ j, 1 < work.numWorkersAllocated j → (work.model j).length < 2^31)
    (l : Label) (s t : Passes) (regular : Regular cfg work s) (_ : Runs.anyStep l s)
    (taken : step cfg topo work l s = some t) : Regular cfg work t := by
  cases l with
  | forward w j => exact regular.forward small taken
  | backward w j order =>
    simp only [step] at taken
    split at taken
    · rename_i iter layer here
      obtain ⟨s',scheduled,taken⟩ := Option.bind_eq_some_iff.mp taken
      cases taken
      obtain ⟨sched,stepped,rfl⟩ := schedule_some scheduled
      simp only [Sincronia.step] at stepped
      split at stepped
      · rename_i may
        obtain ⟨tensor,enqueued,queued⟩ := Sincronia.enqueue_frame stepped
        exact regular.backward here may tensor enqueued queued _
      · cases stepped
    · cases taken
  | complete call =>
    obtain ⟨sched,stepped,rfl⟩ := schedule_some taken
    obtain ⟨clients,completed,stepped⟩ := Option.bind_eq_some_iff.mp stepped
    cases stepped
    obtain ⟨_,rfl⟩ := Clients.complete_some completed
    exact regular.complete call _
  | resume id order =>
    obtain ⟨sched,stepped,rfl⟩ := schedule_some taken
    have frame := Sincronia.resume_frame stepped
    exact regular.frame rfl rfl frame.enqueued frame.tensor fun r known => frame.queued known
  | finish w j =>
    simp only [step] at taken
    split at taken
    · obtain ⟨sched,stepped,rfl⟩ := schedule_some taken
      simp only [Sincronia.step] at stepped
      split at stepped
      · cases stepped
        refine regular.frame rfl rfl rfl rfl fun r known => ?_
        obtain ⟨entry,member,inside⟩ := known
        exact ⟨entry,List.mem_of_mem_filter member,inside⟩
      · cases stepped
    · cases taken

end Passes

end CloudSim
