import CloudSim.Switch
import CloudSim.Worker

/-! The objects of a two-level network and how a placed job is wired into them. -/
namespace CloudSim

structure Network where
  tor : Nat → Switch
  core : Switch
  worker : Nat → Worker

namespace Network

def setTor (net : Network) (t : Nat) (sw : Switch) : Network :=
  { net with tor := fun i => if i = t then sw else net.tor i }

def setWorker (net : Network) (w : Nat) (worker : Worker) : Network :=
  { net with worker := fun i => if i = w then worker else net.worker i }

@[simp] theorem setTor_same (net : Network) (t : Nat) (sw : Switch) :
    (net.setTor t sw).tor t = sw := by simp [setTor]

@[simp] theorem setTor_other (net : Network) (sw : Switch) (h : i ≠ t) :
    (net.setTor t sw).tor i = net.tor i := by simp [setTor,h]

@[simp] theorem setTor_core (net : Network) (t : Nat) (sw : Switch) :
    (net.setTor t sw).core = net.core := rfl

@[simp] theorem setTor_worker (net : Network) (t : Nat) (sw : Switch) :
    (net.setTor t sw).worker = net.worker := rfl

@[simp] theorem setWorker_same (net : Network) (w : Nat) (worker : Worker) :
    (net.setWorker w worker).worker w = worker := by simp [setWorker]

@[simp] theorem setWorker_other (net : Network) (worker : Worker) (h : i ≠ w) :
    (net.setWorker w worker).worker i = net.worker i := by simp [setWorker,h]

@[simp] theorem setWorker_tor (net : Network) (w : Nat) (worker : Worker) :
    (net.setWorker w worker).tor = net.tor := rfl

@[simp] theorem setWorker_core (net : Network) (w : Nat) (worker : Worker) :
    (net.setWorker w worker).core = net.core := rfl

end Network

/-- `K` ports per switch. The constructor multiplies two `int`s to count the workers. -/
structure HierarchicalTopology where
  ports : Nat
  twoPorts : 2 ≤ ports
  nodesFit : ports * (ports - 1) < 2^31

namespace HierarchicalTopology

def hostToRSwitch (topo : HierarchicalTopology) (src : Nat) : Nat := src / (topo.ports - 1)

/-- The switches and workers that `init_network` constructs. -/
def initNetwork (topo : HierarchicalTopology) : Network where
  tor j := { id := j, layer := 0, upperLevelSwitch := some topo.ports }
  core := { id := topo.ports, layer := 1 }
  worker k := { id := k, tor := topo.hostToRSwitch k }

/-- The locals of `set_switch_num_updates` with the objects it updates. -/
structure Wiring where
  net : Network
  cleanerWorkerSet : Table Nat Bool
  involvedTors : List Nat

/-- `unordered_set::insert`. -/
def insertId (ids : List Nat) (id : Nat) : List Nat := if id ∈ ids then ids else ids ++ [id]

/-- One round of the loop over `run_config`. -/
def wireWorker (topo : HierarchicalTopology) (jobId : Nat) (s : Wiring) (wid : Nat) : Wiring :=
  let torId := topo.hostToRSwitch wid
  let worker := s.net.worker wid
  let net := if s.cleanerWorkerSet.get torId then s.net
    else s.net.setWorker wid { worker with cleanToRForJob := worker.cleanToRForJob.put jobId true }
  let tor := net.tor torId
  { net := net.setTor torId
      { tor with
        numUpdatesForJob := tor.numUpdatesForJob.put jobId (u32 (tor.numUpdatesForJob.get jobId + 1))
        downwardIdsForJob := tor.downwardIdsForJob.put jobId
          (insertId (tor.downwardIdsForJob.get jobId) wid) }
    cleanerWorkerSet := s.cleanerWorkerSet.put torId true
    involvedTors := insertId s.involvedTors torId }

def wireWorkers (topo : HierarchicalTopology) (jobId : Nat) (wids : List Nat) (net : Network) :
    Wiring :=
  wids.foldl (topo.wireWorker jobId) ⟨net,default,[]⟩

/-- The loop over `involved_tors` of a job that needs the core switch; `first` is the ToR
that the loop meets first. -/
def wireTor (jobId first : Nat) (net : Network) (torId : Nat) : Network :=
  let tor := net.tor torId
  net.setTor torId
    { tor with
      cleanUpperLevelSwitchForJob :=
        if torId = first then tor.cleanUpperLevelSwitchForJob.put jobId true
        else tor.cleanUpperLevelSwitchForJob
      topLevelForJob := tor.topLevelForJob.put jobId false }

def wireTop (jobId : Nat) (net : Network) (torId : Nat) : Network :=
  let tor := net.tor torId
  net.setTor torId { tor with topLevelForJob := tor.topLevelForJob.put jobId true }

/-- `set_switch_num_updates` for the workers of a run configuration, in the order its map
is iterated; `torOrder` is the order in which the set of involved ToRs is iterated. -/
def setSwitchNumUpdates (topo : HierarchicalTopology) (jobId : Nat) (wids torOrder : List Nat)
    (net : Network) : Network :=
  let net := (topo.wireWorkers jobId wids net).net
  if 1 < torOrder.length then
    let net := torOrder.foldl (wireTor jobId (torOrder.headD 0)) net
    { net with core :=
        { net.core with
          topLevelForJob := net.core.topLevelForJob.put jobId true
          numUpdatesForJob := net.core.numUpdatesForJob.put jobId (u32 torOrder.length)
          downwardIdsForJob := net.core.downwardIdsForJob.put jobId
            (torOrder.foldl insertId (net.core.downwardIdsForJob.get jobId)) } }
  else
    let net := torOrder.foldl (wireTop jobId) net
    { net with core :=
        { net.core with topLevelForJob := net.core.topLevelForJob.put jobId false } }

/-- The ToRs of the workers; workers of one ToR do not need the core. -/
def coreTors (topo : HierarchicalTopology) (wids : List Nat) : List Nat :=
  let tors := wids.foldl (fun tors wid => insertId tors (topo.hostToRSwitch wid)) []
  if tors.length = 1 then [] else tors

def accommodate (topo : HierarchicalTopology) (these those : List Nat) : Bool :=
  those.all (fun wid => decide (wid ∉ these)) &&
    (topo.coreTors those).all fun torId => decide (torId ∉ topo.coreTors these)

end HierarchicalTopology

inductive Topology where
  | custom
  | hierarchical (topo : HierarchicalTopology)

/-- Whether the jobs of the two sets of workers can be reduced at the same time. -/
def Topology.accommodate : Topology → List Nat → List Nat → Bool
  | custom,_,_ => false
  | hierarchical topo,these,those => topo.accommodate these those

end CloudSim
