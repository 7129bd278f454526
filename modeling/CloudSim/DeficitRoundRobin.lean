import CloudSim.Collective
import CloudSim.Heap
import CloudSim.Network
import CloudSim.Runs
import CloudSim.ServerLoop

/-! `DeficitRoundRobin`: one loop serves the ready queues of all jobs in turn, each together with
the jobs that the network can accommodate beside it. -/
namespace CloudSim

/-- An element of `ready_pqueues`: a job and its heap of full groups. -/
abbrev ReadyPqueue := Nat × List (List Entry)

/-- A group that the loop picked, with the iteration and the size reduced so far of each tensor. -/
structure Pick where
  tensors : List (Entry × Nat × Nat)
  popped : Bool
  deriving DecidableEq, Repr

/-- The loop is suspended at an index of `ready_pqueues`, with its `quantums`. `picks` is
history. -/
structure DeficitRoundRobin where
  clients : Clients
  queue : Table Nat (List Entry) := default
  readyPqueues : List ReadyPqueue := []
  jidToDequeIdx : Table Nat Nat := default
  loop : ServerLoop (Nat × Table Nat Nat) := ServerLoop.initial
  picks : List Pick := []

namespace DeficitRoundRobin

inductive Label where
  | enqueue (r : TensorRef)
  | complete (call : Call)
  | resume (id : Nat)
  | finish (w j : Nat)

def initial (work : Workload) : DeficitRoundRobin where
  clients := Clients.initial work

/-- `CustomCompare` looks at the first tensors of two groups. -/
def less (c : Clients) : List Entry → List Entry → Bool
  | l :: _,r :: _ => c.customCompare l.tensor r.tensor
  | _,_ => false

def updateMaps (ready : List ReadyPqueue) (idx : Table Nat Nat) : Table Nat Nat :=
  ready.zipIdx.foldl (fun idx entry => idx.put entry.1.1 entry.2) idx

def readyPqueuesAllEmpty (s : DeficitRoundRobin) : Bool :=
  s.readyPqueues.all fun entry => entry.2.isEmpty

/-- `pq.top().front()`. -/
def front (pq : List (List Entry)) : Option Entry := (Heap.top pq).bind List.head?

/-- The queue with the smallest quantum that the involved workers leave room for, or `i`. -/
def selectIdx (topo : Topology) (work : Workload) (quantums : Table Nat Nat)
    (ready : List ReadyPqueue) (i : Nat) (involvedJids involvedWids : List Nat) : Nat :=
  ((ready.zipIdx.drop i).foldl (fun (best : Nat × Nat) entry =>
    let jobId := entry.1.1
    match front entry.1.2 with
    | none => best
    | some additional =>
      if jobId ∉ involvedJids ∧
          topo.accommodate involvedWids (work.widsAllocated additional.tensor.job) ∧
          quantums.get jobId < best.1 then
        (quantums.get jobId,entry.2)
      else best) (2^32 - 1,i)).2

/-- Work conservation. Each round adds a job, so there are fewer rounds than queues. -/
def involve (topo : Topology) (work : Workload) (quantums : Table Nat Nat)
    (ready : List ReadyPqueue) (i : Nat) : Nat → List Nat → List Nat → List Nat
  | 0,involvedJids,_ => involvedJids
  | fuel + 1,involvedJids,involvedWids =>
    let selected := selectIdx topo work quantums ready i involvedJids involvedWids
    if selected = i then involvedJids
    else
      match ready[selected]? with
      | none => involvedJids
      | some (jobId,pq) =>
        let wids := (front pq).elim [] fun additional => work.widsAllocated additional.tensor.job
        involve topo work quantums ready i fuel (involvedJids ++ [jobId]) (involvedWids ++ wids)

def launch (id : Nat) (allTensors : List Entry) (popped : Bool) (s : DeficitRoundRobin) :
    DeficitRoundRobin :=
  { s with
    clients := s.clients.allreduce id allTensors
    picks := s.picks ++ [⟨allTensors.map fun entry =>
      (entry,(s.clients.tensor entry.tensor).iter,(s.clients.tensor entry.tensor).allreducedSize),
      popped⟩] }

/-- One chunk of the first group of a job. `none` is the `front` of an empty container, or the
division by `CHUNK_SIZE` in the arguments of `myprintf`. -/
def reduce (cfg : Config) (id : Nat) (state : DeficitRoundRobin × Table Nat Nat) (jobId : Nat) :
    Option (DeficitRoundRobin × Table Nat Nat) := do
  let (s,quantums) := state
  let idx := s.jidToDequeIdx.get jobId
  let (jid,pq) ← s.readyPqueues[idx]?
  let allTensors ← Heap.top pq
  let frontTensor ← allTensors.head?
  let tensor := s.clients.tensor frontTensor.tensor
  let after := quantums.put jobId (u32 (quantums.get jobId + 1))
  if cfg.chunkSize = 0 then none
  else if tensor.size ≤ u64 (tensor.allreducedSize + cfg.chunkSize) then
    return ({ s with readyPqueues :=
      s.readyPqueues.set idx (jid,Heap.pop (less s.clients) pq) }.launch id allTensors true,after)
  else return (s.launch id allTensors false,after)

/-- The body of the loop at a queue that is not empty. The set of involved jobs is iterated in
the order in which it was filled. -/
def serve (cfg : Config) (topo : Topology) (work : Workload) (id i : Nat)
    (quantums : Table Nat Nat) (s : DeficitRoundRobin) :
    Option (DeficitRoundRobin × Table Nat Nat) := do
  let (jid,pq) ← s.readyPqueues[i]?
  let tensor ← front pq
  let involvedJids := involve topo work quantums s.readyPqueues i s.readyPqueues.length [jid]
    (work.widsAllocated tensor.tensor.job)
  involvedJids.foldlM (reduce cfg id) (s,quantums)

/-- The first queue from index `i` on that is not empty. -/
def scan (s : DeficitRoundRobin) (i : Nat) : Option Nat :=
  ((s.readyPqueues.drop i).findIdx? fun entry => !entry.2.isEmpty).map (i + ·)

/-- The loop from index `i` of its inner loop to its next suspension. -/
def proceed (cfg : Config) (topo : Topology) (work : Workload) (id i : Nat)
    (quantums : Table Nat Nat) (s : DeficitRoundRobin) :
    Option (DeficitRoundRobin × Position (Nat × Table Nat Nat)) :=
  let next := (s.scan i).or (if s.readyPqueuesAllEmpty then none else s.scan 0)
  match next with
  | none => some (s,.leaving)
  | some i => do
    let (s,quantums) ← s.serve cfg topo work id i quantums
    return (s,.reducing (i,quantums))

/-- `collective_scheduler` up to its first suspension. -/
def collectiveScheduler (cfg : Config) (topo : Topology) (work : Workload) (s : DeficitRoundRobin) :
    Option DeficitRoundRobin := do
  let head :=
    if s.readyPqueuesAllEmpty then some (s,.leaving)
    else s.proceed cfg topo work s.loop.coroutines 0 default
  let (s,position) ← head
  return { s with loop := s.loop.begin position }

def push (cfg : Config) (s : DeficitRoundRobin) (r : TensorRef) : DeficitRoundRobin :=
  { s with
    clients := s.clients.enqueue r
    queue := s.queue.put (r.key cfg) (s.queue.get (r.key cfg) ++ [s.clients.nextEntry r]) }

/-- The full group moves into the ready queue of its job. -/
def ready (cfg : Config) (s : DeficitRoundRobin) (r : TensorRef) : DeficitRoundRobin :=
  let (idx,pqueues) :=
    if (s.jidToDequeIdx r.job).isNone then
      (s.jidToDequeIdx.put r.job s.readyPqueues.length,s.readyPqueues ++ [(0,[])])
    else (s.jidToDequeIdx,s.readyPqueues)
  { s with
    jidToDequeIdx := idx
    readyPqueues := pqueues.modify (idx.get r.job) fun entry =>
      (r.job,Heap.push (less s.clients) (s.queue.get (r.key cfg)) entry.2)
    queue := s.queue.erase (r.key cfg) }

def enqueue (cfg : Config) (topo : Topology) (work : Workload) (s : DeficitRoundRobin)
    (r : TensorRef) : Option DeficitRoundRobin :=
  let pushed := s.push cfg r
  if (pushed.queue.get (r.key cfg)).length = work.numWorkersAllocated r.job then
    let queued := pushed.ready cfg r
    if queued.loop.loopIsRunning then some queued else queued.collectiveScheduler cfg topo work
  else some pushed

def cleanupForJob (s : DeficitRoundRobin) (j : Nat) : DeficitRoundRobin :=
  let pqueues := s.readyPqueues.filter fun entry => entry.1 ≠ j
  { s with
    readyPqueues := pqueues
    jidToDequeIdx := updateMaps pqueues (s.jidToDequeIdx.erase j) }

def step (cfg : Config) (topo : Topology) (work : Workload) (l : Label) (s : DeficitRoundRobin) :
    Option DeficitRoundRobin :=
  match l with
  | .enqueue r => if s.clients.MayEnqueue work r then s.enqueue cfg topo work r else none
  | .complete call => do
    let clients ← s.clients.complete cfg.chunkSize call
    return { s with clients := clients }
  | .resume id =>
    match s.loop.instances id with
    | none => none
    | some .leaving => some { s with loop := s.loop.finish id }
    | some (.reducing (i,quantums)) =>
      if s.clients.awaits id = false then do
        let (s,position) ← s.proceed cfg topo work id (i + 1) quantums
        return { s with loop := s.loop.suspend id position }
      else none
  | .finish w j =>
    if s.clients.MayFinish work w j then
      some ({ s with clients := s.clients.finish w j }.cleanupForJob j)
    else none

end DeficitRoundRobin
end CloudSim
