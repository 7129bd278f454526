import CloudSim.Group
import CloudSim.Heap
import CloudSim.Runs

/-! `ByteScheduler`: per job a loop that reduces the most urgent full group chunk by chunk. -/
namespace CloudSim

/-- `loops` holds the suspended `kick_off` of each job. `launches` and `cleared` are history:
the entries each chunk was started on, and those that `queue[key].clear()` removed. -/
structure ByteScheduler where
  clients : Clients
  queue : Table Nat (List Entry) := default
  readyQueue : Table Nat (List TensorRef) := default
  activeJobs : Finset Nat := ∅
  canErase : Finset Nat := ∅
  loops : Table Nat Nat := default
  coroutines : Nat := 0
  launches : List (List Entry) := []
  cleared : List (List Entry) := []

namespace ByteScheduler

inductive Label where
  | enqueue (r : TensorRef)
  | complete (call : Call)
  | resume (id : Nat)
  | finish (w j : Nat)

def initial (work : Workload) : ByteScheduler where
  clients := Clients.initial work

/-- The inner loop of `kick_off`: finished tensors leave the ready queue while they are on top. -/
def popFinished (cfg : Config) (j : Nat) : Nat → ByteScheduler → ByteScheduler
  | 0,s => s
  | fuel + 1,s =>
    match Heap.top (s.readyQueue.get j) with
    | none => s
    | some tensor =>
      let key := tensor.key cfg
      if u32 key ∈ s.canErase then
        popFinished cfg j fuel { s with
          canErase := s.canErase.erase (u32 key)
          readyQueue := s.readyQueue.put j (Heap.pop s.clients.customCompare (s.readyQueue.get j))
          queue := s.queue.put key []
          cleared := s.cleared ++ [s.queue.get key] }
      else s

/-- `cid >= total_cid`. -/
def lastChunk (cfg : Config) (t : Tensor) : Bool :=
  let cid := u64 (t.allreducedSize / cfg.chunkSize + 1)
  let totalCid := if t.size % cfg.chunkSize ≠ 0 then u64 (t.size / cfg.chunkSize + 1)
    else t.size / cfg.chunkSize
  decide (totalCid ≤ cid)

/-- One chunk of every entry, up to the `co_await` on all of them. -/
def launch (cfg : Config) (s : ByteScheduler) (j id : Nat) (tensor : TensorRef) : ByteScheduler :=
  let key := tensor.key cfg
  { s with
    clients := s.clients.allreduce id (s.queue.get key)
    canErase := if lastChunk cfg (s.clients.tensor tensor) then insert (u32 key) s.canErase
      else s.canErase
    loops := s.loops.put id j
    launches := s.launches ++ [s.queue.get key] }

/-- The label `end` of `kick_off`. -/
def leave (s : ByteScheduler) (j id : Nat) : ByteScheduler :=
  { s with activeJobs := s.activeJobs.erase j, loops := s.loops.erase id }

/-- `kick_off` from the head of its loop to the next suspension. -/
def kickOff (cfg : Config) (s : ByteScheduler) (j id : Nat) : ByteScheduler :=
  if s.readyQueue.get j = [] ∨ j ∉ s.activeJobs then s.leave j id
  else
    let s := popFinished cfg j (s.readyQueue.get j).length s
    match Heap.top (s.readyQueue.get j) with
    | none => s.leave j id
    | some tensor => s.launch cfg j id tensor

/-- What the loop `id` of job `j` may change. -/
structure Kept (j id : Nat) (s t : ByteScheduler) : Prop where
  coroutines : t.coroutines = s.coroutines
  enqueued : t.clients.enqueued = s.clients.enqueued
  finished : t.clients.finished = s.clients.finished
  loops : ∀ other i, t.loops other = some i → other = id ∧ i = j ∨ s.loops other = some i
  ready : ∀ i, s.readyQueue i ≠ none → t.readyQueue i ≠ none
  members : ∀ i, ∀ r ∈ t.readyQueue.get i, r ∈ s.readyQueue.get i

theorem Kept.refl (j id : Nat) (s : ByteScheduler) : Kept j id s s :=
  ⟨rfl,rfl,rfl,fun _ _ => Or.inr,fun _ known => known,fun _ _ member => member⟩

theorem Kept.trans {id : Nat} (first : Kept j id s t) (second : Kept j id t u) :
    Kept j id s u where
  coroutines := second.coroutines.trans first.coroutines
  enqueued := second.enqueued.trans first.enqueued
  finished := second.finished.trans first.finished
  loops other i known := (second.loops other i known).elim Or.inl (first.loops other i)
  ready i known := second.ready i (first.ready i known)
  members i r member := first.members i r (second.members i r member)

theorem leave_kept (s : ByteScheduler) (j id : Nat) : Kept j id s (s.leave j id) := by
  refine ⟨rfl,rfl,rfl,fun other i known => ?_,fun _ known => known,fun _ _ member => member⟩
  by_cases this : other = id
  · simp [leave,this] at known
  · exact Or.inr (by simpa [leave,this] using known)

theorem launch_kept (cfg : Config) (s : ByteScheduler) (j id : Nat) (r : TensorRef) :
    Kept j id s (s.launch cfg j id r) := by
  refine ⟨rfl,rfl,rfl,fun other i known => ?_,fun _ known => known,fun _ _ member => member⟩
  by_cases this : other = id
  · subst this
    exact Or.inl ⟨rfl,by simpa [launch] using known.symm⟩
  · exact Or.inr (by simpa [launch,this] using known)

theorem popFinished_kept (cfg : Config) (j id fuel : Nat) (s : ByteScheduler) :
    Kept j id s (popFinished cfg j fuel s) := by
  induction fuel generalizing s with
  | zero => exact Kept.refl j id s
  | succ fuel ih =>
    unfold popFinished
    split
    · exact Kept.refl j id s
    · dsimp only
      split
      · refine Kept.trans ?_ (ih _)
        refine ⟨rfl,rfl,rfl,fun _ _ => Or.inr,fun i known => ?_,fun i r member => ?_⟩
        · by_cases here : i = j
          · simp [here]
          · simpa [here] using known
        · by_cases here : i = j
          · subst here
            exact Heap.mem_of_mem_pop _ (by simpa using member)
          · simpa [here] using member
      · exact Kept.refl j id s

theorem kickOff_kept (cfg : Config) (s : ByteScheduler) (j id : Nat) :
    Kept j id s (s.kickOff cfg j id) := by
  unfold kickOff
  split
  · exact leave_kept s j id
  · dsimp only
    have popped := popFinished_kept cfg j id (s.readyQueue.get j).length s
    split
    · exact popped.trans (leave_kept _ j id)
    · exact popped.trans (launch_kept cfg _ j id _)

def push (cfg : Config) (s : ByteScheduler) (r : TensorRef) : ByteScheduler :=
  { s with
    clients := s.clients.enqueue r
    queue := s.queue.put (r.key cfg) (s.queue.get (r.key cfg) ++ [s.clients.nextEntry r]) }

def ready (s : ByteScheduler) (r : TensorRef) : ByteScheduler :=
  { s with readyQueue :=
      s.readyQueue.put r.job (Heap.push s.clients.customCompare r (s.readyQueue.get r.job)) }

def enqueue (cfg : Config) (work : Workload) (s : ByteScheduler) (r : TensorRef) : ByteScheduler :=
  let pushed := s.push cfg r
  if (pushed.queue.get (r.key cfg)).length = work.numWorkersAllocated r.job then
    let queued := pushed.ready r
    if r.job ∈ queued.activeJobs then queued
    else
      { queued with
        activeJobs := insert r.job queued.activeJobs
        coroutines := queued.coroutines + 1 }.kickOff cfg r.job queued.coroutines
  else pushed

/-- `cleanup_for_job`, which a worker calls before it deletes its tensors. -/
def cleanupForJob (s : ByteScheduler) (j : Nat) : ByteScheduler :=
  { s with
    queue := fun key =>
      match s.queue key with
      | some (e :: rest) => if e.tensor.job = j then none else some (e :: rest)
      | other => other
    activeJobs := s.activeJobs.erase j
    readyQueue := s.readyQueue.erase j }

/-- A `kick_off` whose `all_of` has triggered. -/
def Due (s : ByteScheduler) (id j : Nat) : Prop := s.loops id = some j ∧ s.clients.awaits id = false

/-- What a `kick_off` reads when it resumes has not been deleted: the ready queue that it
refers to, and the tensor on top of it. -/
def Readable (s : ByteScheduler) (j : Nat) : Prop :=
  s.readyQueue j ≠ none ∧ ∀ r ∈ Heap.top (s.readyQueue.get j), s.clients.finished r.machine r.job = false

instance (s : ByteScheduler) (j : Nat) : Decidable (s.Readable j) :=
  inferInstanceAs (Decidable (_ ∧ _))

/-- No step reads what was deleted: what follows it is undefined. -/
def step (cfg : Config) (work : Workload) (l : Label) (s : ByteScheduler) :
    Option ByteScheduler :=
  match l with
  | .enqueue r => if s.clients.MayEnqueue work r then some (s.enqueue cfg work r) else none
  | .complete call => do
    let clients ← s.clients.complete cfg.chunkSize call
    return { s with clients := clients }
  | .resume id => do
    let j ← s.loops id
    if s.clients.awaits id = false ∧ s.Readable j then some (s.kickOff cfg j id) else none
  | .finish w j =>
    if s.clients.MayFinish work w j then
      some ({ s with clients := s.clients.finish w j }.cleanupForJob j)
    else none

end ByteScheduler
end CloudSim
