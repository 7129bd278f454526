import CloudSim.Cleaners
import CloudSim.Multicast

/-! The queues of both topologies. Every queue is on one link, between two different objects. -/
namespace CloudSim

inductive Port where
  | torWorker (j k : Nat)
  | workerTor (k j : Nat)
  | torCore (j k : Nat)
  | coreTor (k j : Nat)
  deriving DecidableEq, Repr

namespace Port

def source : Port → Node
  | torWorker j _ => .tor j
  | workerTor k _ => .worker k
  | torCore j _ => .tor j
  | coreTor _ _ => .core

def target : Port → Node
  | torWorker _ k => .worker k
  | workerTor _ j => .tor j
  | torCore _ _ => .core
  | coreTor _ j => .tor j

theorem source_ne_target (port : Port) : port.source ≠ port.target := by
  cases port <;> exact Node.noConfusion

end Port

namespace Queues

def queueAt (queues : Queues) : Port → Option Nat
  | .torWorker j k => queues.torWorker.get j k
  | .workerTor k j => queues.workerTor.get k j
  | .torCore j k => queues.torCore.get j k
  | .coreTor k j => queues.coreTor.get k j

structure Separate (queues : Queues) : Prop where
  old : ∀ port queue, queues.queueAt port = some queue → queue < queues.allocated
  once : ∀ port other queue, queues.queueAt port = some queue →
    queues.queueAt other = some queue → port = other

/-- The two queues of a new link are new. -/
theorem Separate.link {queues queues' : Queues} (separate : queues.Separate) (first second : Port)
    (allocated : queues'.allocated = queues.allocated + 2)
    (placed : ∀ port queue, queues'.queueAt port = some queue → queues.queueAt port = some queue ∨
      port = first ∧ queue = queues.allocated ∨ port = second ∧ queue = queues.allocated + 1) :
    queues'.Separate := by
  constructor
  case old =>
    intro port queue found
    rcases placed port queue found with before | ⟨_,rfl⟩ | ⟨_,rfl⟩
    · have := separate.old port queue before
      omega
    · omega
    · omega
  case once =>
    intro port other queue found also
    rcases placed port queue found with before | ⟨rfl,rfl⟩ | ⟨rfl,rfl⟩ <;>
      rcases placed other _ also with before' | ⟨rfl,same⟩ | ⟨rfl,same⟩
    · exact separate.once port other queue before before'
    · have := separate.old port _ before
      omega
    · have := separate.old port _ before
      omega
    · have := separate.old other _ before'
      omega
    · rfl
    · omega
    · have := separate.old other _ before'
      omega
    · omega
    · rfl

theorem separate_of_empty {queues : Queues} (empty : ∀ port, queues.queueAt port = none) :
    queues.Separate where
  old port queue found := by simp [empty] at found
  once port other queue found := by simp [empty] at found

end Queues

/-- Every route crosses the queue of a link of its own, from the object that sends to another. -/
structure OneLinkEach (route : Node → Node → Option Route) : Prop where
  apart : ∀ a b r, route a b = some r → a ≠ r.last
  own : ∀ a b r c d r', route a b = some r → route c d = some r' → r.queue = r'.queue →
    a = c ∧ r.last = r'.last

theorem Queues.Separate.oneLinkEach {queues : Queues} (separate : queues.Separate)
    {route : Node → Node → Option Route} (ports : ∀ a b r, route a b = some r →
      ∃ port : Port, port.source = a ∧ port.target = r.last ∧ queues.queueAt port = some r.queue) :
    OneLinkEach route := by
  constructor
  case apart =>
    intro a b r found
    obtain ⟨port,rfl,target,_⟩ := ports a b r found
    exact target ▸ port.source_ne_target
  case own =>
    intro a b r c d r' found also same
    obtain ⟨port,rfl,target,queue⟩ := ports a b r found
    obtain ⟨other,rfl,target',queue'⟩ := ports c d r' also
    cases separate.once port other r.queue queue (same ▸ queue')
    exact ⟨rfl,target.symm.trans target'⟩

namespace HierarchicalTopology
variable (topo : HierarchicalTopology)

theorem linkWorker_separate (j : Nat) {queues : Queues} (separate : queues.Separate) (l : Nat) :
    (topo.linkWorker j queues l).Separate := by
  refine separate.link (.torWorker j (j * (topo.ports - 1) + l))
    (.workerTor (j * (topo.ports - 1) + l) j) rfl fun port queue found => ?_
  cases port <;> simp only [Queues.queueAt,linkWorker,QueueTable.get_assign] at found ⊢ <;> grind

theorem linkCore_separate {queues : Queues} (separate : queues.Separate) (j : Nat) :
    (linkCore queues j).Separate := by
  refine separate.link (.torCore j 0) (.coreTor 0 j) rfl fun port queue found => ?_
  cases port <;> simp only [Queues.queueAt,linkCore,QueueTable.get_assign] at found ⊢ <;> grind

theorem linkAll_separate : topo.linkAll.Separate := by
  have start : topo.setParams.Separate := Queues.separate_of_empty fun port => by
    cases port <;> exact QueueTable.get_resize _ _ _ _
  have workers := foldl_range_invariant (n := topo.ports) (P := fun _ => Queues.Separate) start
    (f := fun queues j => (List.range (topo.ports - 1)).foldl (topo.linkWorker j) queues)
    fun j queues _ separate => foldl_range_invariant (P := fun _ => Queues.Separate) separate
      fun l _ _ separate => topo.linkWorker_separate j separate l
  exact foldl_range_invariant (P := fun _ => Queues.Separate) workers
    fun j _ _ separate => linkCore_separate separate j

structure Routed (queues : Queues) (c : Construction) : Prop where
  worker : ∀ w r, c.routeToTor.get w = some r →
    ∃ j, r.last = .tor j ∧ queues.workerTor.get w j = some r.queue
  tor : ∀ t r, c.upRoute.get t = some r → r.last = .core ∧ queues.torCore.get t 0 = some r.queue

theorem construct_routed : Routed topo.linkAll topo.construct := by
  have start : Routed topo.linkAll {} :=
    ⟨(fun _ _ found => by cases found),fun _ _ found => by cases found⟩
  refine foldl_range_invariant (P := fun _ => Routed topo.linkAll) start fun j c _ before => ?_
  refine foldl_range_invariant (P := fun _ => Routed topo.linkAll) ⟨before.worker,?_⟩
    fun l c _ before => ⟨?_,before.tor⟩
  · intro t r found
    rcases eq_or_ne t j with rfl | other
    · rw [Table.get_put_same] at found
      obtain ⟨queue,there,rfl⟩ := Option.map_eq_some_iff.mp found
      exact ⟨rfl,there⟩
    · rw [Table.get_put_other _ other] at found
      exact before.tor t r found
  · intro w r found
    unfold constructWorker at found
    dsimp only at found
    rcases eq_or_ne w (l + j * (topo.ports - 1)) with rfl | other
    · rw [Table.get_put_same] at found
      obtain ⟨queue,there,rfl⟩ := Option.map_eq_some_iff.mp found
      exact ⟨j,rfl,there⟩
    · rw [Table.get_put_other _ other] at found
      exact before.worker w r found

/-- The route of a packet that an object sends to another. The numbers and layers of the
switches are those that they were constructed with. -/
def routeFrom : Node → Node → Option Route
  | .worker w,_ => topo.construct.routeToTor.get w
  | .tor t,.core => topo.construct.upRoute.get t
  | .tor t,.worker w => getSwitchSingleHopRoute topo.linkAll t 0 w false
  | .core,.tor t => getSwitchSingleHopRoute topo.linkAll topo.ports 1 t false
  | _,_ => none

theorem routeFrom_oneLinkEach : OneLinkEach topo.routeFrom := by
  have routed := topo.construct_routed
  refine topo.linkAll_separate.oneLinkEach fun a b r found => ?_
  cases a with
  | worker w =>
    obtain ⟨j,last,queue⟩ := routed.worker w r found
    exact ⟨.workerTor w j,rfl,last.symm,queue⟩
  | tor t =>
    cases b with
    | core =>
      obtain ⟨last,queue⟩ := routed.tor t r found
      exact ⟨.torCore t 0,rfl,last.symm,queue⟩
    | worker w =>
      obtain ⟨queue,there,rfl⟩ := Option.map_eq_some_iff.mp found
      exact ⟨.torWorker t w,rfl,rfl,there⟩
    | tor _ => cases found
  | core =>
    cases b with
    | tor t =>
      obtain ⟨queue,there,rfl⟩ := Option.map_eq_some_iff.mp found
      exact ⟨.coreTor 0 t,rfl,rfl,there⟩
    | core => cases found
    | worker _ => cases found

end HierarchicalTopology

namespace CustomTopology

/-- The constructor's vectors. There are none for a core. -/
def setParams (nodes : Nat) : Queues where
  torWorker := .resize 1 nodes
  workerTor := .resize nodes 1
  torCore := .resize 0 0
  coreTor := .resize 0 0
  allocated := 0

/-- The two links between the ToR and worker `k`. -/
def linkWorker (queues : Queues) (k : Nat) : Queues :=
  { queues with
    torWorker := queues.torWorker.assign 0 k (some queues.allocated)
    workerTor := queues.workerTor.assign k 0 (some (queues.allocated + 1))
    allocated := queues.allocated + 2 }

def linkAll (nodes : Nat) : Queues := (List.range nodes).foldl linkWorker (setParams nodes)

/-- The `route_to_tor` of a worker. -/
def routeToTor (nodes k : Nat) : Option Route :=
  ((linkAll nodes).workerTor.get k 0).map fun queue => ⟨queue,.tor 0⟩

def getSwitchSingleHopRoute (queues : Queues) (src dest : Nat) : Option Route :=
  (queues.torWorker.get src dest).map fun queue => ⟨queue,.worker dest⟩

/-- The ToR has no route upward. -/
def routeFrom (nodes : Nat) : Node → Node → Option Route
  | .worker w,_ => routeToTor nodes w
  | .tor t,.worker w => getSwitchSingleHopRoute (linkAll nodes) t w
  | _,_ => none

theorem linkWorker_separate {queues : Queues} (separate : queues.Separate) (k : Nat) :
    (linkWorker queues k).Separate := by
  refine separate.link (.torWorker 0 k) (.workerTor k 0) rfl fun port queue found => ?_
  cases port <;> simp only [Queues.queueAt,linkWorker,QueueTable.get_assign] at found ⊢ <;> grind

theorem linkAll_separate (nodes : Nat) : (linkAll nodes).Separate := by
  have start : (setParams nodes).Separate := Queues.separate_of_empty fun port => by
    cases port <;> exact QueueTable.get_resize _ _ _ _
  exact foldl_range_invariant (P := fun _ => Queues.Separate) start
    fun k _ _ separate => linkWorker_separate separate k

theorem routeFrom_oneLinkEach (nodes : Nat) : OneLinkEach (routeFrom nodes) := by
  refine (linkAll_separate nodes).oneLinkEach fun a b r found => ?_
  cases a with
  | worker w =>
    obtain ⟨queue,there,rfl⟩ := Option.map_eq_some_iff.mp found
    exact ⟨.workerTor w 0,rfl,rfl,there⟩
  | tor t =>
    cases b with
    | worker w =>
      obtain ⟨queue,there,rfl⟩ := Option.map_eq_some_iff.mp found
      exact ⟨.torWorker t w,rfl,rfl,there⟩
    | core => cases found
    | tor _ => cases found
  | core => cases found

end CustomTopology
end CloudSim
