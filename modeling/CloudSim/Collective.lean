import CloudSim.Worker
import Mathlib.Data.List.Count

/-! The workers as the clients of a collective scheduler: they enqueue tensors, run the
allreduces that the scheduler calls, and tear their jobs down. -/
namespace CloudSim

/-- The placed jobs: their workers, the sizes of their tensors and their iterations. -/
structure Workload where
  widsAllocated : Nat → List Nat
  model : Nat → List Nat
  nIter : Nat → Nat
  widsDistinct : ∀ j, (widsAllocated j).Nodup
  sizesFit : ∀ j, ∀ size ∈ model j, size < 2^64
  itersFit : ∀ j, nIter j < 2^32

namespace Workload

def numWorkersAllocated (work : Workload) (j : Nat) : Nat := (work.widsAllocated j).length

def Allocates (work : Workload) (r : TensorRef) : Prop :=
  r.machine ∈ work.widsAllocated r.job ∧ r.tensorId < (work.model r.job).length

instance (work : Workload) (r : TensorRef) : Decidable (work.Allocates r) :=
  inferInstanceAs (Decidable (_ ∧ _))

def size (work : Workload) (j t : Nat) : Nat := (work.model j).getD t 0

theorem size_fits (work : Workload) (j t : Nat) : work.size j t < 2^64 := by
  unfold size
  rw [List.getD_eq_getElem?_getD]
  cases entry : (work.model j)[t]? with
  | none => simp
  | some size => exact work.sizesFit j size (List.mem_of_getElem? entry)

end Workload

/-- A tensor in a scheduler's queue. The source holds the pointer only; `turn` counts the
worker's earlier enqueues of the tensor. -/
structure Entry where
  tensor : TensorRef
  turn : Nat
  deriving DecidableEq, Repr

/-- A call of `Worker::allreduce` that has not ended, and the coroutine that awaits it. -/
structure Call where
  waiter : Nat
  entry : Entry
  deriving DecidableEq, Repr

/-- `served` and `reduced` are history: the entries whose tensor was reduced completely, in
order, and the sizes reduced for each entry. -/
structure Clients where
  tensor : TensorRef → Tensor
  enqueued : TensorRef → Nat := fun _ => 0
  calls : List Call := []
  finished : Nat → Nat → Bool := fun _ _ => false
  served : List Entry := []
  reduced : Entry → Nat := fun _ => 0

namespace Clients

/-- `CustomCompare`: the smaller iteration comes first, then the smaller tensor. -/
def customCompare (c : Clients) (lhs rhs : TensorRef) : Bool :=
  if (c.tensor lhs).iter = (c.tensor rhs).iter then decide (rhs.tensorId < lhs.tensorId)
  else decide ((c.tensor rhs).iter < (c.tensor lhs).iter)

def initial (work : Workload) : Clients where
  tensor r := { size := work.size r.job r.tensorId }

/-- The backward pass of a worker reaches `cs->enqueue`: its job has several workers and
iterations left, and its last request of the tensor's forward lock was granted. -/
def MayEnqueue (work : Workload) (c : Clients) (r : TensorRef) : Prop :=
  work.Allocates r ∧ 1 < work.numWorkersAllocated r.job ∧ c.enqueued r < work.nIter r.job ∧
    c.enqueued r ≤ (c.tensor r).iter

instance (work : Workload) (c : Clients) (r : TensorRef) : Decidable (c.MayEnqueue work r) :=
  inferInstanceAs (Decidable (_ ∧ _))

def nextEntry (c : Clients) (r : TensorRef) : Entry := ⟨r,c.enqueued r⟩

def enqueue (c : Clients) (r : TensorRef) : Clients :=
  { c with enqueued := fun i => if i = r then c.enqueued r + 1 else c.enqueued i }

/-- The loop that calls `allreduce` on every entry and collects the events for `all_of`. -/
def allreduce (c : Clients) (waiter : Nat) (entries : List Entry) : Clients :=
  { c with calls := c.calls ++ entries.map (Call.mk waiter) }

def endsPass (chunkSize : Nat) (t : Tensor) : Bool :=
  decide (t.size ≤ u64 (t.allreducedSize + Worker.allreduceSize chunkSize t))

/-- The end of a call of `Worker::allreduce`. -/
def answer (chunkSize : Nat) (c : Clients) (call : Call) : Clients :=
  let r := call.entry.tensor
  let size := Worker.allreduceSize chunkSize (c.tensor r)
  { c with
    tensor := fun i => if i = r then Worker.advanceTensor (c.tensor r) size else c.tensor i
    calls := c.calls.erase call
    served := if endsPass chunkSize (c.tensor r) then c.served ++ [call.entry] else c.served
    reduced := fun e => if e = call.entry then c.reduced e + size else c.reduced e }

def complete (chunkSize : Nat) (c : Clients) (call : Call) : Option Clients :=
  if c.calls.find? (fun other => other.entry.tensor = call.entry.tensor) = some call then
    some (c.answer chunkSize call)
  else none

section answer
variable (chunkSize : Nat) (c : Clients) (call : Call)

@[simp] theorem answer_tensor (r : TensorRef) : (c.answer chunkSize call).tensor r =
    if r = call.entry.tensor then
      Worker.advanceTensor (c.tensor r) (Worker.allreduceSize chunkSize (c.tensor r))
    else c.tensor r := by
  by_cases same : r = call.entry.tensor
  · subst same; rfl
  · simp [answer,same]

@[simp] theorem answer_calls : (c.answer chunkSize call).calls = c.calls.erase call := rfl

@[simp] theorem answer_enqueued : (c.answer chunkSize call).enqueued = c.enqueued := rfl

@[simp] theorem answer_finished : (c.answer chunkSize call).finished = c.finished := rfl

theorem count_answer_served (e : Entry) : (c.answer chunkSize call).served.count e =
    c.served.count e +
      if endsPass chunkSize (c.tensor call.entry.tensor) ∧ e = call.entry then 1 else 0 := by
  by_cases ends : endsPass chunkSize (c.tensor call.entry.tensor) = true
  · by_cases same : e = call.entry
    · simp [answer,ends,same]
    · simp [answer,ends,same,Ne.symm same]
  · simp [answer,ends]

theorem mem_answer_served (member : e ∈ c.served) : e ∈ (c.answer chunkSize call).served := by
  unfold answer
  dsimp only
  split
  · exact List.mem_append_left _ member
  · exact member

@[simp] theorem answer_reduced (e : Entry) : (c.answer chunkSize call).reduced e =
    if e = call.entry then
      c.reduced e + Worker.allreduceSize chunkSize (c.tensor call.entry.tensor)
    else c.reduced e := rfl

end answer

theorem complete_some {chunkSize : Nat} {c d : Clients}
    (taken : c.complete chunkSize call = some d) : call ∈ c.calls ∧ d = c.answer chunkSize call := by
  unfold complete at taken
  split at taken
  · cases taken
    exact ⟨List.mem_of_find?_eq_some ‹_›,rfl⟩
  · cases taken

/-- `all_of` over the events of the coroutine has not triggered. -/
def awaits (c : Clients) (waiter : Nat) : Bool := c.calls.any fun call => call.waiter == waiter

/-- The last requests of the forward locks were granted. -/
def MayFinish (work : Workload) (c : Clients) (w j : Nat) : Prop :=
  w ∈ work.widsAllocated j ∧ c.finished w j = false ∧
    ∀ t < (work.model j).length, c.enqueued ⟨w,j,t⟩ = work.nIter j ∧
      work.nIter j ≤ (c.tensor ⟨w,j,t⟩).iter

instance (work : Workload) (c : Clients) (w j : Nat) : Decidable (c.MayFinish work w j) :=
  inferInstanceAs (Decidable (_ ∧ _ ∧ _))

def finish (c : Clients) (w j : Nat) : Clients :=
  { c with finished := fun i k => if i = w ∧ k = j then true else c.finished i k }

end Clients

/-- Different layers of the jobs have different 64-bit keys. -/
def Workload.DistinctKeys (work : Workload) (cfg : Config) : Prop :=
  ∀ j t i k, t < (work.model j).length → k < (work.model i).length →
    cfg.getKey j t = cfg.getKey i k → j = i ∧ t = k

/-- The keys of different layers of the jobs differ modulo 2^32. -/
def Workload.DistinctCutKeys (work : Workload) (cfg : Config) : Prop :=
  ∀ j t i k, t < (work.model j).length → k < (work.model i).length →
    u32 (cfg.getKey j t) = u32 (cfg.getKey i k) → j = i ∧ t = k

theorem Workload.DistinctCutKeys.distinctKeys {work : Workload} {cfg : Config}
    (distinct : work.DistinctCutKeys cfg) : work.DistinctKeys cfg :=
  fun j t i k first second same => distinct j t i k first second (congrArg u32 same)

/-- The sum that tells whether a chunk is the last of its tensor does not wrap. -/
def Workload.ChunksFit (work : Workload) (cfg : Config) : Prop :=
  ∀ j, ∀ size ∈ work.model j, size + cfg.chunkSize < 2^64

theorem Workload.ChunksFit.size {work : Workload} {cfg : Config} (fits : work.ChunksFit cfg)
    (layer : t < (work.model j).length) : work.size j t + cfg.chunkSize < 2^64 := by
  apply fits j
  rw [Workload.size,List.getD_eq_getElem?_getD,List.getElem?_eq_getElem layer]
  exact List.getElem_mem _

/-- One entry of every worker of the job, all of the same turn. -/
def Workload.WholeGroup (work : Workload) (entries : List Entry) : Prop :=
  ∃ j t turn, t < (work.model j).length ∧
    entries.Perm ((work.widsAllocated j).map fun w => ⟨⟨w,j,t⟩,turn⟩)

def oneLayerConfig : Config := ⟨1,1,2,fun _ t => t⟩

theorem Workload.onePass_fits (_ : Nat) : 1 < 2^32 := by decide

theorem Workload.unitTensor_fits (_ : Nat) : ∀ size ∈ [1], size < 2^64 := by simp

/-- Two workers, one tensor, two iterations. -/
def oneLayer : Workload where
  widsAllocated _ := [0,1]
  model j := if j = 0 then [3] else []
  nIter _ := 2
  widsDistinct _ := by decide
  sizesFit j := by by_cases first : j = 0 <;> simp [first]
  itersFit _ := by decide

theorem oneLayer_distinctCutKeys : oneLayer.DistinctCutKeys oneLayerConfig := by
  intro j t i k first second same
  have only (j t : Nat) (inside : t < (oneLayer.model j).length) : j = 0 ∧ t = 0 := by
    by_cases here : j = 0
    · subst here
      exact ⟨rfl,Nat.lt_one_iff.mp inside⟩
    · simp [oneLayer,here] at inside
  obtain ⟨rfl,rfl⟩ := only j t first
  obtain ⟨rfl,rfl⟩ := only i k second
  exact ⟨rfl,rfl⟩

theorem oneLayer_distinctKeys : oneLayer.DistinctKeys oneLayerConfig :=
  oneLayer_distinctCutKeys.distinctKeys

theorem oneLayer_chunksFit : oneLayer.ChunksFit oneLayerConfig := by
  intro j size member
  by_cases first : j = 0
  · subst first
    rw [List.mem_singleton.mp member]
    decide
  · simp [oneLayer,first] at member

end CloudSim
