import CloudSim.Group
import CloudSim.Resource
import CloudSim.Runs

/-! `ReadyAndGo`: the worker that completes a group starts its collective as soon as the
job has no other in progress. -/
namespace CloudSim

/-- Where a call of `enqueue` that completed a group is suspended: its request of the job lock
waits or was granted, or its collective is in progress. -/
inductive Stage where
  | requested
  | granted
  | reducing
  deriving DecidableEq, Repr

structure Enqueue where
  entry : Entry
  stage : Stage
  deriving DecidableEq, Repr

/-- `collectives` and `erased` are history: the entries each collective was started on, and
those that `queue.erase` removed. -/
structure ReadyAndGo where
  clients : Clients
  queue : Table Nat (List Entry) := default
  jobLocks : Table Nat (Resource Nat) := default
  enqueues : Table Nat Enqueue := default
  coroutines : Nat := 0
  collectives : List (List Entry) := []
  erased : List Entry := []

namespace ReadyAndGo

inductive Label where
  | enqueue (r : TensorRef)
  | start (id : Nat)
  | complete (call : Call)
  | resume (id : Nat)
  | finish (w j : Nat)

def initial (work : Workload) : ReadyAndGo where
  clients := Clients.initial work

def setStage (enqueues : Table Nat Enqueue) (ids : List Nat) (stage : Stage) :
    Table Nat Enqueue :=
  fun id => if id ∈ ids then (enqueues id).map fun e => { e with stage := stage } else enqueues id

/-- The `co_await` on the request of the job lock. -/
def request (s : ReadyAndGo) (entry : Entry) : ReadyAndGo :=
  let (triggered,lock) := (s.jobLocks.get entry.tensor.job).request s.coroutines
  { s with
    jobLocks := s.jobLocks.put entry.tensor.job lock
    enqueues := setStage (s.enqueues.put s.coroutines ⟨entry,.requested⟩) triggered .granted
    coroutines := s.coroutines + 1 }

def push (cfg : Config) (s : ReadyAndGo) (r : TensorRef) : ReadyAndGo :=
  { s with
    clients := s.clients.enqueue r
    queue := s.queue.put (r.key cfg) (s.queue.get (r.key cfg) ++ [s.clients.nextEntry r]) }

def enqueue (cfg : Config) (work : Workload) (s : ReadyAndGo) (r : TensorRef) : ReadyAndGo :=
  let pushed := s.push cfg r
  if (pushed.queue.get (r.key cfg)).length = work.numWorkersAllocated r.job then
    pushed.request (s.clients.nextEntry r)
  else pushed

/-- The granted call starts its collective. -/
def start (cfg : Config) (s : ReadyAndGo) (id : Nat) (e : Enqueue) : ReadyAndGo :=
  let entries := s.queue.get (e.entry.tensor.key cfg)
  { s with
    clients := s.clients.allreduce id entries
    enqueues := setStage s.enqueues [id] .reducing
    collectives := s.collectives ++ [entries] }

/-- `all_of` has triggered: the job lock is released and the queue erased. -/
def resume (cfg : Config) (s : ReadyAndGo) (id : Nat) (e : Enqueue) : ReadyAndGo :=
  let (triggered,lock) := (s.jobLocks.get e.entry.tensor.job).release
  { s with
    jobLocks := s.jobLocks.put e.entry.tensor.job lock
    enqueues := setStage (s.enqueues.erase id) triggered .granted
    queue := s.queue.erase (e.entry.tensor.key cfg)
    erased := s.erased ++ s.queue.get (e.entry.tensor.key cfg) }

/-- The tensor that a suspended call holds has not been deleted. -/
def Readable (s : ReadyAndGo) (e : Enqueue) : Prop :=
  s.clients.finished e.entry.tensor.machine e.entry.tensor.job = false

/-- A call whose `all_of` has triggered. -/
def Due (s : ReadyAndGo) (id : Nat) (e : Enqueue) : Prop :=
  s.enqueues id = some e ∧ e.stage = .reducing ∧ s.clients.awaits id = false

instance (s : ReadyAndGo) (e : Enqueue) : Decidable (s.Readable e) :=
  inferInstanceAs (Decidable (_ = false))

/-- No step reads a deleted tensor: what follows it is undefined. -/
def step (cfg : Config) (work : Workload) (l : Label) (s : ReadyAndGo) : Option ReadyAndGo :=
  match l with
  | .enqueue r => if s.clients.MayEnqueue work r then some (s.enqueue cfg work r) else none
  | .start id => do
    let e ← s.enqueues id
    if e.stage = .granted ∧ s.Readable e then some (s.start cfg id e) else none
  | .complete call => do
    let clients ← s.clients.complete 0 call
    return { s with clients := clients }
  | .resume id => do
    let e ← s.enqueues id
    if e.stage = .reducing ∧ s.clients.awaits id = false ∧ s.Readable e then
      some (s.resume cfg id e)
    else none
  | .finish w j =>
    if s.clients.MayFinish work w j then some { s with clients := s.clients.finish w j } else none

end ReadyAndGo
end CloudSim
