import CloudSim.ReadyAndGo

/-! `FirstInFirstOutOneByOne`: one lock for all jobs. The worker that completes a group requests it
and starts the collective when the lock is granted. -/
namespace CloudSim

/-- The call of `enqueue` that started a collective, and the entries it was started on with the
iterations that their tensors had. -/
structure Collective where
  opener : Entry
  entries : List (Entry × Nat)
  deriving DecidableEq, Repr

/-- `completed` and `collectives` are history: the calls that completed a group, in order, and
the collectives started. -/
structure FirstInFirstOutOneByOne where
  clients : Clients
  queue : Table Nat (List Entry) := default
  lock : Resource Nat := {}
  enqueues : Table Nat Enqueue := default
  coroutines : Nat := 0
  completed : List Entry := []
  collectives : List Collective := []

namespace FirstInFirstOutOneByOne

inductive Label where
  | enqueue (r : TensorRef)
  | start (id : Nat)
  | complete (call : Call)
  | resume (id : Nat)
  | finish (w j : Nat)

def initial (work : Workload) : FirstInFirstOutOneByOne where
  clients := Clients.initial work

def push (cfg : Config) (s : FirstInFirstOutOneByOne) (r : TensorRef) : FirstInFirstOutOneByOne :=
  { s with
    clients := s.clients.enqueue r
    queue := s.queue.put (r.key cfg) (s.queue.get (r.key cfg) ++ [s.clients.nextEntry r]) }

/-- The `co_await` on the request of the lock. -/
def request (s : FirstInFirstOutOneByOne) (entry : Entry) : FirstInFirstOutOneByOne :=
  let (triggered,lock) := s.lock.request s.coroutines
  { s with
    lock := lock
    enqueues := ReadyAndGo.setStage (s.enqueues.put s.coroutines ⟨entry,.requested⟩) triggered
      .granted
    coroutines := s.coroutines + 1
    completed := s.completed ++ [entry] }

def enqueue (cfg : Config) (work : Workload) (s : FirstInFirstOutOneByOne) (r : TensorRef) :
    FirstInFirstOutOneByOne :=
  let pushed := s.push cfg r
  if (pushed.queue.get (r.key cfg)).length = work.numWorkersAllocated r.job then
    pushed.request (s.clients.nextEntry r)
  else pushed

/-- The lock is granted: the collective starts and the queue is erased. -/
def start (cfg : Config) (s : FirstInFirstOutOneByOne) (id : Nat) (e : Enqueue) :
    FirstInFirstOutOneByOne :=
  let entries := s.queue.get (e.entry.tensor.key cfg)
  { s with
    clients := s.clients.allreduce id entries
    queue := s.queue.erase (e.entry.tensor.key cfg)
    enqueues := ReadyAndGo.setStage s.enqueues [id] .reducing
    collectives := s.collectives ++
      [⟨e.entry,entries.map fun entry => (entry,(s.clients.tensor entry.tensor).iter)⟩] }

/-- `all_of` has triggered: the call releases the lock and ends. -/
def resume (s : FirstInFirstOutOneByOne) (id : Nat) : FirstInFirstOutOneByOne :=
  let (triggered,lock) := s.lock.release
  { s with
    lock := lock
    enqueues := ReadyAndGo.setStage (s.enqueues.erase id) triggered .granted }

/-- The tensor that a suspended call holds has not been deleted. -/
def Readable (s : FirstInFirstOutOneByOne) (e : Enqueue) : Prop :=
  s.clients.finished e.entry.tensor.machine e.entry.tensor.job = false

def step (cfg : Config) (work : Workload) (l : Label) (s : FirstInFirstOutOneByOne) :
    Option FirstInFirstOutOneByOne :=
  match l with
  | .enqueue r => if s.clients.MayEnqueue work r then some (s.enqueue cfg work r) else none
  | .start id => do
    let e ← s.enqueues id
    if e.stage = .granted then some (s.start cfg id e) else none
  | .complete call => do
    let clients ← s.clients.complete 0 call
    return { s with clients := clients }
  | .resume id => do
    let e ← s.enqueues id
    if e.stage = .reducing ∧ s.clients.awaits id = false then some (s.resume id) else none
  | .finish w j =>
    if s.clients.MayFinish work w j then some { s with clients := s.clients.finish w j } else none

end FirstInFirstOutOneByOne
end CloudSim
