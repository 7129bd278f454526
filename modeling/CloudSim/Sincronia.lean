import CloudSim.Collective
import CloudSim.Heap
import CloudSim.Network
import CloudSim.Runs
import CloudSim.ServerLoop

/-! `Sincronia`: one loop orders the most urgent tensors of all jobs by `bssi`, then reduces a chunk
of each in that order. -/
namespace CloudSim

/-- A key that the loop served: what was queued under it, with the iteration and the size reduced so
far of each tensor. -/
structure Serve where
  key : Nat
  tensors : List (Entry × Nat × Nat)
  deriving DecidableEq, Repr

/-- The loop is suspended with the rest of `result`, the keys still to be served in this order.
`serves` and `pops` are history: the served keys, and the entries that left `queue` at once. -/
structure Sincronia where
  clients : Clients
  queue : Table Nat (List Entry) := default
  readyPqueues : List (Nat × List TensorRef) := []
  canErase : Finset Nat := ∅
  loop : ServerLoop (List Nat) := ServerLoop.initial
  serves : List Serve := []
  pops : List (List Entry) := []

namespace Sincronia

/-- `order` is what `bssi` returns if the step calls it: it computes with floating-point weights. -/
inductive Label where
  | enqueue (r : TensorRef) (order : List Nat)
  | complete (call : Call)
  | resume (id : Nat) (order : List Nat)
  | finish (w j : Nat)

def initial (work : Workload) : Sincronia where
  clients := Clients.initial work

def readyPqueuesAllEmpty (s : Sincronia) : Bool :=
  s.readyPqueues.all fun entry => entry.2.isEmpty

/-- Finished tensors leave a ready queue while they are on top. `none` is `pop_front` of an
empty deque. -/
def cleanOut (cfg : Config) (work : Workload) :
    Nat → Sincronia → List TensorRef → Option (Sincronia × List TensorRef)
  | 0,s,pq => some (s,pq)
  | fuel + 1,s,pq =>
    match Heap.top pq with
    | none => some (s,pq)
    | some tensor =>
      let key := tensor.key cfg
      if u32 key ∈ s.canErase then
        if work.numWorkersAllocated tensor.job ≤ (s.queue.get key).length then
          cleanOut cfg work fuel { s with
            canErase := s.canErase.erase (u32 key)
            queue := s.queue.put key ((s.queue.get key).drop (work.numWorkersAllocated tensor.job))
            pops := s.pops ++ [(s.queue.get key).take (work.numWorkersAllocated tensor.job)] }
            (Heap.pop s.clients.customCompare pq)
        else none
      else some (s,pq)

/-- The loop over `ready_pqueues`, which collects the tensors to be scheduled. -/
def collect (cfg : Config) (work : Workload) :
    List (Nat × List TensorRef) → Sincronia →
      Option (Sincronia × List (Nat × List TensorRef) × List TensorRef)
  | [],s => some (s,[],[])
  | (jid,pq) :: rest,s => do
    let (s,pq) ← cleanOut cfg work pq.length s pq
    let (s,rest,weights) ← collect cfg work rest s
    return (s,(jid,pq) :: rest,(Heap.top pq).toList ++ weights)

/-- Work conservation over the rest of `result`. -/
def involve (topo : Topology) (work : Workload) (s : Sincronia) :
    List Nat → List Nat → List Nat → Option (List Nat)
  | [],tkeys,_ => some tkeys
  | key :: rest,tkeys,wids => do
    let that ← (s.queue.get key).head?
    let allocated := work.widsAllocated that.tensor.job
    if topo.accommodate wids allocated then
      involve topo work s rest (tkeys ++ [key]) (wids ++ allocated)
    else involve topo work s rest tkeys wids

def reduce (cfg : Config) (id : Nat) (s : Sincronia) (key : Nat) : Option Sincronia := do
  let frontTensor ← (s.queue.get key).head?
  let tensor := s.clients.tensor frontTensor.tensor
  return { s with
    canErase :=
      if tensor.size ≤ u64 (tensor.allreducedSize + cfg.chunkSize) then
        insert (u32 (frontTensor.tensor.key cfg)) s.canErase
      else s.canErase
    clients := s.clients.allreduce id (s.queue.get key)
    serves := s.serves ++ [⟨key,(s.queue.get key).map fun entry =>
      (entry,(s.clients.tensor entry.tensor).iter,(s.clients.tensor entry.tensor).allreducedSize)⟩] }

/-- One round of the loop over `result`. -/
def serve (cfg : Config) (topo : Topology) (work : Workload) (id frontTkey : Nat)
    (result : List Nat) (s : Sincronia) : Option (Sincronia × List Nat) := do
  let tensor ← (s.queue.get frontTkey).head?
  let involvedTkeys ← s.involve topo work result [tensor.tensor.key cfg]
    (work.widsAllocated tensor.tensor.job)
  let s ← involvedTkeys.foldlM (reduce cfg id) s
  return (s,result.filter fun key => key ∉ involvedTkeys)

/-- The next round, if `result` is not empty. It is empty at first only if all ready queues are,
and the loop ends. -/
def serveNext (cfg : Config) (topo : Topology) (work : Workload) (id : Nat) (s : Sincronia) :
    List Nat → Option (Sincronia × Position (List Nat))
  | [] => some (s,.leaving)
  | frontTkey :: rest => do
    let (s,rest) ← s.serve cfg topo work id frontTkey rest
    return (s,.reducing rest)

/-- The order of the collected tensors. -/
def schedule (cfg : Config) (order : List Nat) (weights : List TensorRef) : Option (List Nat) :=
  let keys := weights.map (TensorRef.key cfg)
  if weights.length = 1 then some keys else if order.Perm keys then some order else none

/-- The loop with the rest of `result` to its next suspension. -/
def proceed (cfg : Config) (topo : Topology) (work : Workload) (id : Nat) (order : List Nat)
    (result : List Nat) (s : Sincronia) : Option (Sincronia × Position (List Nat)) :=
  if result ≠ [] then s.serveNext cfg topo work id result
  else if s.readyPqueuesAllEmpty then some (s,.leaving)
  else do
    let (s,pqueues,weights) ← collect cfg work s.readyPqueues s
    let result ← schedule cfg order weights
    { s with readyPqueues := pqueues }.serveNext cfg topo work id result

def push (cfg : Config) (s : Sincronia) (r : TensorRef) : Sincronia :=
  { s with
    clients := s.clients.enqueue r
    queue := s.queue.put (r.key cfg) (s.queue.get (r.key cfg) ++ [s.clients.nextEntry r]) }

/-- `ready_pqueues[jid].push(tensor)`. -/
def ready (s : Sincronia) (r : TensorRef) : Sincronia :=
  { s with readyPqueues :=
      if s.readyPqueues.any fun entry => entry.1 = r.job then
        s.readyPqueues.map fun entry =>
          if entry.1 = r.job then (entry.1,Heap.push s.clients.customCompare r entry.2) else entry
      else s.readyPqueues ++ [(r.job,[r])] }

def enqueue (cfg : Config) (topo : Topology) (work : Workload) (order : List Nat) (s : Sincronia)
    (r : TensorRef) : Option Sincronia :=
  let pushed := s.push cfg r
  if (pushed.queue.get (r.key cfg)).length % work.numWorkersAllocated r.job = 0 then
    let queued := pushed.ready r
    if queued.loop.loopIsRunning then some queued
    else do
      let (s,position) ← queued.proceed cfg topo work queued.loop.coroutines order []
      return { s with loop := s.loop.begin position }
  else some pushed

def cleanupForJob (s : Sincronia) (j : Nat) : Sincronia :=
  { s with readyPqueues := s.readyPqueues.filter fun entry => entry.1 ≠ j }

def step (cfg : Config) (topo : Topology) (work : Workload) (l : Label) (s : Sincronia) :
    Option Sincronia :=
  match l with
  | .enqueue r order => if s.clients.MayEnqueue work r then s.enqueue cfg topo work order r else none
  | .complete call => do
    let clients ← s.clients.complete cfg.chunkSize call
    return { s with clients := clients }
  | .resume id order =>
    match s.loop.instances id with
    | none => none
    | some .leaving => some { s with loop := s.loop.finish id }
    | some (.reducing result) =>
      if s.clients.awaits id = false then do
        let (s,position) ← s.proceed cfg topo work id order result
        return { s with loop := s.loop.suspend id position }
      else none
  | .finish w j =>
    if s.clients.MayFinish work w j then
      some ({ s with clients := s.clients.finish w j }.cleanupForJob j)
    else none

end Sincronia
end CloudSim
