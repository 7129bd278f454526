import CloudSim.Tree
import CloudSim.Station

/-! The links that `init_network` builds, and the routes that a downward multicast takes. -/
namespace CloudSim

theorem foldl_range_invariant {P : Nat → S → Prop} {f : S → Nat → S} {s : S} (start : P 0 s)
    (keeps : ∀ i s, i < n → P i s → P (i+1) (f s i)) : P n ((List.range n).foldl f s) := by
  induction n with
  | zero => exact start
  | succ n ih =>
    rw [List.range_succ,List.foldl_append]
    exact keeps n _ n.lt_succ_self (ih fun i s below => keeps i s (Nat.lt_succ_of_lt below))

/-- A vector of vectors of queue pointers, all of one size. Each queue has a number of its own,
and `nullptr` is `none`. -/
structure QueueTable where
  rows : Nat
  cols : Nat
  entry : Nat → Nat → Option Nat

namespace QueueTable

def resize (rows cols : Nat) : QueueTable := ⟨rows,cols,fun _ _ => none⟩

/-- `table[i][j]`; there is nothing to read outside the vectors. -/
def get (table : QueueTable) (i j : Nat) : Option Nat :=
  if i < table.rows ∧ j < table.cols then table.entry i j else none

def assign (table : QueueTable) (i j : Nat) (queue : Option Nat) : QueueTable :=
  { table with entry := fun a b => if a = i ∧ b = j then queue else table.entry a b }

theorem get_assign (table : QueueTable) (a b i j : Nat) (queue : Option Nat) :
    (table.assign i j queue).get a b =
      if a = i ∧ b = j ∧ i < table.rows ∧ j < table.cols then queue else table.get a b := by
  simp only [get,assign]
  grind

@[simp] theorem get_resize (rows cols i j : Nat) : (resize rows cols).get i j = none :=
  ite_self _

@[simp] theorem assign_rows (table : QueueTable) (i j : Nat) (queue : Option Nat) :
    (table.assign i j queue).rows = table.rows := rfl

@[simp] theorem assign_cols (table : QueueTable) (i j : Nat) (queue : Option Nat) :
    (table.assign i j queue).cols = table.cols := rfl

end QueueTable

structure Queues where
  torWorker : QueueTable
  workerTor : QueueTable
  torCore : QueueTable
  coreTor : QueueTable
  allocated : Nat

/-- A queue and the object behind it. -/
structure Route where
  queue : Nat
  last : Node
  deriving DecidableEq, Repr

namespace HierarchicalTopology

def noOfNodes (topo : HierarchicalTopology) : Nat := topo.ports * (topo.ports - 1)

/-- `set_params`. The vectors are filled with null pointers, which `init_network` writes again. -/
def setParams (topo : HierarchicalTopology) : Queues where
  torWorker := .resize topo.ports topo.noOfNodes
  workerTor := .resize topo.noOfNodes topo.ports
  torCore := .resize topo.ports 1
  coreTor := .resize 1 topo.ports
  allocated := 0

/-- The two links between ToR `j` and its `l`-th worker. -/
def linkWorker (topo : HierarchicalTopology) (j : Nat) (queues : Queues) (l : Nat) : Queues :=
  let k := j * (topo.ports - 1) + l
  { queues with
    torWorker := queues.torWorker.assign j k (some queues.allocated)
    workerTor := queues.workerTor.assign k j (some (queues.allocated + 1))
    allocated := queues.allocated + 2 }

/-- The two links between ToR `j` and the core. -/
def linkCore (queues : Queues) (j : Nat) : Queues :=
  { queues with
    torCore := queues.torCore.assign j 0 (some queues.allocated)
    coreTor := queues.coreTor.assign 0 j (some (queues.allocated + 1))
    allocated := queues.allocated + 2 }

def linkAll (topo : HierarchicalTopology) : Queues :=
  (List.range topo.ports).foldl linkCore
    ((List.range topo.ports).foldl
      (fun queues j => (List.range (topo.ports - 1)).foldl (topo.linkWorker j) queues)
      topo.setParams)

/-- The vectors of objects while `init_network` fills them. -/
structure Construction where
  torSwitches : Table Nat Switch := default
  workers : Table Nat Worker := default
  machines : Table Nat (List Nat) := default
  upRoute : Table Nat (Option Route) := default
  routeToTor : Table Nat (Option Route) := default
  nextWorkerId : Nat := 0

/-- The worker that is constructed takes the next number of the static counter. -/
def constructWorker (topo : HierarchicalTopology) (queues : Queues) (j : Nat) (c : Construction)
    (k : Nat) : Construction :=
  let i := k + j * (topo.ports - 1)
  { c with
    workers := c.workers.put i { id := c.nextWorkerId, tor := j }
    machines := c.machines.put j (c.machines.get j ++ [c.nextWorkerId])
    routeToTor := c.routeToTor.put i ((queues.workerTor.get i j).map fun queue => ⟨queue,.tor j⟩)
    nextWorkerId := c.nextWorkerId + 1 }

def constructTor (topo : HierarchicalTopology) (queues : Queues) (c : Construction) (j : Nat) :
    Construction :=
  (List.range (topo.ports - 1)).foldl (topo.constructWorker queues j)
    { c with
      torSwitches := c.torSwitches.put j { id := j, layer := 0, upperLevelSwitch := some topo.ports }
      upRoute := c.upRoute.put j ((queues.torCore.get j 0).map fun queue => ⟨queue,.core⟩) }

def construct (topo : HierarchicalTopology) : Construction :=
  (List.range topo.ports).foldl (topo.constructTor topo.linkAll) {}

/-- `get_switch_single_hop_route`, with nothing for a route over a null pointer. -/
def getSwitchSingleHopRoute (queues : Queues) (src layer dest : Nat) (upward : Bool) :
    Option Route :=
  if layer = 1 then
    (queues.coreTor.get 0 dest).map fun queue => ⟨queue,.tor dest⟩
  else if upward then
    (queues.torCore.get src 0).map fun queue => ⟨queue,.core⟩
  else
    (queues.torWorker.get src dest).map fun queue => ⟨queue,.worker dest⟩

theorem hostToRSwitch_block (topo : HierarchicalTopology) (j : Nat) (inside : l < topo.ports - 1) :
    topo.hostToRSwitch (j * (topo.ports - 1) + l) = j := by
  unfold hostToRSwitch
  rw [Nat.mul_comm,Nat.mul_add_div (Nat.zero_lt_of_lt inside),Nat.div_eq_of_lt inside,Nat.add_zero]

theorem block_lt (topo : HierarchicalTopology) (tor : j < topo.ports)
    (inside : l < topo.ports - 1) : j * (topo.ports - 1) + l < topo.noOfNodes := by
  have next : j * (topo.ports - 1) + (topo.ports - 1) ≤ topo.noOfNodes := by
    rw [← Nat.succ_mul]
    exact Nat.mul_le_mul_right _ tor
  omega

theorem hostToRSwitch_lt (topo : HierarchicalTopology) (node : k < topo.noOfNodes) :
    topo.hostToRSwitch k < topo.ports :=
  Nat.div_lt_of_lt_mul (by rwa [Nat.mul_comm])

/-- The links to the workers below `bound` and to the ToRs below `tors`. -/
structure Linked (topo : HierarchicalTopology) (bound tors : Nat) (queues : Queues) : Prop where
  torWorkerSize : queues.torWorker.rows = topo.ports ∧ queues.torWorker.cols = topo.noOfNodes
  workerTorSize : queues.workerTor.rows = topo.noOfNodes ∧ queues.workerTor.cols = topo.ports
  torCoreSize : queues.torCore.rows = topo.ports ∧ queues.torCore.cols = 1
  coreTorSize : queues.coreTor.rows = 1 ∧ queues.coreTor.cols = topo.ports
  torWorker : ∀ j k, (queues.torWorker.get j k).isSome ↔ k < bound ∧ topo.hostToRSwitch k = j
  workerTor : ∀ k j, (queues.workerTor.get k j).isSome ↔ k < bound ∧ topo.hostToRSwitch k = j
  torCore : ∀ j k, (queues.torCore.get j k).isSome ↔ j < tors ∧ k = 0
  coreTor : ∀ k j, (queues.coreTor.get k j).isSome ↔ j < tors ∧ k = 0

theorem linkWorker_linked (topo : HierarchicalTopology) (tor : j < topo.ports)
    (inside : l < topo.ports - 1)
    (linked : Linked topo (j * (topo.ports - 1) + l) tors queues) :
    Linked topo (j * (topo.ports - 1) + l + 1) tors (topo.linkWorker j queues l) := by
  have home := topo.hostToRSwitch_block j inside
  have room := topo.block_lt tor inside
  constructor
  case torWorkerSize => exact linked.torWorkerSize
  case workerTorSize => exact linked.workerTorSize
  case torCoreSize => exact linked.torCoreSize
  case coreTorSize => exact linked.coreTorSize
  case torCore => exact linked.torCore
  case coreTor => exact linked.coreTor
  case torWorker =>
    intro a k
    rw [show (topo.linkWorker j queues l).torWorker = queues.torWorker.assign j
      (j * (topo.ports - 1) + l) (some queues.allocated) from rfl,QueueTable.get_assign,
      linked.torWorkerSize.1,linked.torWorkerSize.2]
    have before := linked.torWorker a k
    grind
  case workerTor =>
    intro k a
    rw [show (topo.linkWorker j queues l).workerTor = queues.workerTor.assign
      (j * (topo.ports - 1) + l) j (some (queues.allocated + 1)) from rfl,QueueTable.get_assign,
      linked.workerTorSize.1,linked.workerTorSize.2]
    have before := linked.workerTor k a
    grind

theorem linkCore_linked (topo : HierarchicalTopology) (tor : j < topo.ports)
    (linked : Linked topo bound j queues) : Linked topo bound (j+1) (linkCore queues j) := by
  constructor
  case torWorkerSize => exact linked.torWorkerSize
  case workerTorSize => exact linked.workerTorSize
  case torCoreSize => exact linked.torCoreSize
  case coreTorSize => exact linked.coreTorSize
  case torWorker => exact linked.torWorker
  case workerTor => exact linked.workerTor
  case torCore =>
    intro a k
    rw [show (linkCore queues j).torCore = queues.torCore.assign j 0 (some queues.allocated) from
      rfl,QueueTable.get_assign,linked.torCoreSize.1,linked.torCoreSize.2]
    have before := linked.torCore a k
    grind
  case coreTor =>
    intro k a
    rw [show (linkCore queues j).coreTor = queues.coreTor.assign 0 j (some (queues.allocated + 1))
      from rfl,QueueTable.get_assign,linked.coreTorSize.1,linked.coreTorSize.2]
    have before := linked.coreTor k a
    grind

/-- `init_network` links each worker with the ToR of its number, and each ToR with the core. -/
theorem linkAll_linked (topo : HierarchicalTopology) :
    Linked topo topo.noOfNodes topo.ports topo.linkAll := by
  have empty : Linked topo (0 * (topo.ports - 1)) 0 topo.setParams := by
    constructor <;> simp [setParams]
    all_goals exact ⟨rfl,rfl⟩
  have workers := foldl_range_invariant (n := topo.ports)
    (P := fun j queues => Linked topo (j * (topo.ports - 1)) 0 queues) empty
    (f := fun queues j => (List.range (topo.ports - 1)).foldl (topo.linkWorker j) queues)
    fun j queues tor linked => by
      rw [Nat.succ_mul]
      exact foldl_range_invariant (P := fun l queues => Linked topo (j * (topo.ports - 1) + l) 0 queues)
        linked fun l queues inside linked => topo.linkWorker_linked tor inside linked
  exact foldl_range_invariant (P := fun j queues => Linked topo topo.noOfNodes j queues) workers
    fun j queues tor linked => topo.linkCore_linked tor linked

/-- The objects after `tors` ToRs and `bound` workers. They are those of `initNetwork`. -/
structure Constructed (topo : HierarchicalTopology) (tors bound : Nat) (c : Construction) :
    Prop where
  torSwitches : ∀ t, c.torSwitches t = if t < tors then some (topo.initNetwork.tor t) else none
  workers : ∀ w, c.workers w = if w < bound then some (topo.initNetwork.worker w) else none
  machines : ∀ t, c.machines.get t = (List.range bound).filter fun w => topo.hostToRSwitch w == t
  upRoute : ∀ t < tors, ∃ queue, c.upRoute.get t = some ⟨queue,.core⟩
  routeToTor : ∀ w < bound, ∃ queue, c.routeToTor.get w = some ⟨queue,.tor (topo.hostToRSwitch w)⟩
  nextWorkerId : c.nextWorkerId = bound

theorem constructWorker_constructed (topo : HierarchicalTopology) (tor : j < topo.ports)
    (inside : l < topo.ports - 1)
    (constructed : Constructed topo tors (j * (topo.ports - 1) + l) c) :
    Constructed topo tors (j * (topo.ports - 1) + l + 1)
      (topo.constructWorker topo.linkAll j c l) := by
  have home := topo.hostToRSwitch_block j inside
  have room := topo.block_lt tor inside
  have linked := (topo.linkAll_linked.workerTor (j * (topo.ports - 1) + l) j).mpr ⟨room,home⟩
  obtain ⟨queue,found⟩ := Option.isSome_iff_exists.mp linked
  have fresh := constructed.nextWorkerId
  unfold constructWorker
  rw [Nat.add_comm l]
  dsimp only
  constructor
  case torSwitches => exact constructed.torSwitches
  case upRoute => exact constructed.upRoute
  case nextWorkerId => rw [fresh]
  case workers =>
    intro w
    have before := constructed.workers w
    change c.workers.put _ _ w = _
    rcases eq_or_ne w (j * (topo.ports - 1) + l) with rfl | other
    · rw [Table.put_same,if_pos (Nat.lt_succ_self _),fresh]
      simp [initNetwork,home]
    · rw [Table.put_other _ other,before]
      grind
  case machines =>
    intro t
    rw [List.range_succ,filter_snoc,← constructed.machines,home]
    rcases eq_or_ne t j with rfl | other
    · simp [fresh]
    · simp [other,other.symm]
  case routeToTor =>
    intro w below
    rcases eq_or_ne w (j * (topo.ports - 1) + l) with rfl | other
    · exact ⟨queue,by rw [Table.get_put_same,found,home]; rfl⟩
    · rw [Table.get_put_other _ other]
      exact constructed.routeToTor w (by omega)

theorem constructTor_constructed (topo : HierarchicalTopology) (tor : j < topo.ports)
    (constructed : Constructed topo j (j * (topo.ports - 1)) c) :
    Constructed topo (j+1) ((j+1) * (topo.ports - 1)) (topo.constructTor topo.linkAll c j) := by
  have linked := (topo.linkAll_linked.torCore j 0).mpr ⟨tor,rfl⟩
  obtain ⟨queue,found⟩ := Option.isSome_iff_exists.mp linked
  rw [Nat.succ_mul]
  apply foldl_range_invariant (P := fun l c => Constructed topo (j+1) (j * (topo.ports - 1) + l) c)
  case keeps => exact fun l c inside before => topo.constructWorker_constructed tor inside before
  case start =>
    constructor
    case workers => exact constructed.workers
    case machines => exact constructed.machines
    case routeToTor => exact constructed.routeToTor
    case nextWorkerId => exact constructed.nextWorkerId
    case torSwitches =>
      intro t
      have before := constructed.torSwitches t
      change c.torSwitches.put _ _ t = _
      rcases eq_or_ne t j with rfl | other
      · rw [Table.put_same,if_pos (Nat.lt_succ_self _)]
        rfl
      · rw [Table.put_other _ other,before]
        grind
    case upRoute =>
      intro t below
      rcases eq_or_ne t j with rfl | other
      · exact ⟨queue,by rw [Table.get_put_same,found]; rfl⟩
      · rw [Table.get_put_other _ other]
        exact constructed.upRoute t (by omega)

/-- `init_network` constructs every object once, under its own number, below its own ToR. -/
theorem construct_constructed (topo : HierarchicalTopology) :
    Constructed topo topo.ports topo.noOfNodes topo.construct := by
  have empty : Constructed topo 0 (0 * (topo.ports - 1)) {} := by
    rw [Nat.zero_mul]
    exact ⟨fun _ => rfl,fun _ => rfl,fun _ => rfl,fun _ below => absurd below (Nat.not_lt_zero _),
      fun _ below => absurd below (Nat.not_lt_zero _),rfl⟩
  exact foldl_range_invariant (P := fun j c => Constructed topo j (j * (topo.ports - 1)) c) empty
    fun j c tor before => topo.constructTor_constructed tor before

def routes (queues : Queues) (sw : Switch) (ids : List Nat) : List (Option Route) :=
  ids.map fun dest => getSwitchSingleHopRoute queues sw.id sw.layer dest false

/-- The loop of `multicast_downward` asks the topology for the routes that `down_routes` does
not hold yet, and stores them there. -/
def cachedRoutes (queues : Queues) (sw : Switch) :
    List Nat → Table Nat (Option Route) → List (Option Route) × Table Nat (Option Route)
  | [],cache => ([],cache)
  | dest :: rest,cache =>
    let route := (cache dest).getD (getSwitchSingleHopRoute queues sw.id sw.layer dest false)
    let (found,cache) := cachedRoutes queues sw rest (cache.put dest route)
    (route :: found,cache)

/-- Every stored route is the one that the topology would return. -/
def Faithful (queues : Queues) (sw : Switch) (cache : Table Nat (Option Route)) : Prop :=
  ∀ dest route, cache dest = some route →
    route = getSwitchSingleHopRoute queues sw.id sw.layer dest false

theorem cachedRoutes_faithful (faithful : Faithful queues sw cache) :
    (cachedRoutes queues sw ids cache).1 = routes queues sw ids ∧
      Faithful queues sw (cachedRoutes queues sw ids cache).2 := by
  induction ids generalizing cache with
  | nil => exact ⟨rfl,faithful⟩
  | cons dest rest ih =>
    have same : (cache dest).getD (getSwitchSingleHopRoute queues sw.id sw.layer dest false) =
        getSwitchSingleHopRoute queues sw.id sw.layer dest false := by
      cases held : cache dest with
      | none => rfl
      | some route => exact faithful dest route held
    have stored : Faithful queues sw (cache.put dest
        (getSwitchSingleHopRoute queues sw.id sw.layer dest false)) := by
      intro d route held
      rcases eq_or_ne d dest with rfl | other
      · rw [Table.put_same] at held
        exact (Option.some.inj held).symm
      · rw [Table.put_other _ other] at held
        exact faithful d route held
    obtain ⟨found,after⟩ := ih stored
    simp only [cachedRoutes,same]
    exact ⟨congrArg (List.cons _) found,after⟩

structure Leg where
  hop : Hop
  route : Option Route

def multicast (queues : Queues) (sw : Switch) (sent : List Hop) (jobId : Nat) : List Leg :=
  List.zipWith Leg.mk sent (routes queues sw (sw.downwardIdsForJob.get jobId))

def arrive (cfg : Config) (queues : Queues) (net : Network) (hop : Hop) : List Leg :=
  match hop.dest with
  | .tor t =>
    multicast queues (net.tor t) ((net.tor t).receivePacket cfg hop.packet).sent hop.packet.jobId
  | .core =>
    multicast queues net.core (net.core.receivePacket cfg hop.packet).sent hop.packet.jobId
  | .worker _ => []

def cascade (cfg : Config) (queues : Queues) (net : Network) : Nat → List Leg → List Leg
  | 0,legs => legs
  | n+1,legs => legs ++ cascade cfg queues net n ((legs.map Leg.hop).flatMap (arrive cfg queues net))

def reached (hop : Hop) : Option Nat :=
  match hop.dest with
  | .worker w => some w
  | _ => none

theorem multicast_eq (queues : Queues) (sw : Switch) (p : Packet) :
    multicast queues sw (sw.multicastDownward p) p.jobId =
      (sw.downwardIdsForJob.get p.jobId).map fun dest =>
        ⟨⟨sw.downwardNode dest,{ p with id := sw.id, upward := false }⟩,
          getSwitchSingleHopRoute queues sw.id sw.layer dest false⟩ := by
  simp only [multicast,routes,Switch.multicastDownward,List.zipWith_map,List.zipWith_self]

theorem cascade_nil (cfg : Config) (queues : Queues) (net : Network) (n : Nat) :
    cascade cfg queues net n [] = [] := by
  induction n with
  | zero => rfl
  | succ n ih => exact ih

theorem cascade_all {P : Leg → Prop} (start : ∀ leg ∈ legs, P leg)
    (keeps : ∀ leg, P leg → ∀ later ∈ arrive cfg queues net leg.hop, P later) :
    ∀ leg ∈ cascade cfg queues net n legs, P leg := by
  induction n generalizing legs with
  | zero => exact start
  | succ n ih =>
    intro leg member
    rcases List.mem_append.mp member with first | rest
    · exact start leg first
    · refine ih (fun later inside => ?_) leg rest
      obtain ⟨hop,known,sent⟩ := List.mem_flatMap.mp inside
      obtain ⟨before,earlier,rfl⟩ := List.mem_map.mp known
      exact keeps before (start before earlier) later sent

/-- The object at the end of a leg is the switch or worker of the job with that number. -/
def Ends (tree : Tree) (net : Network) : Node → Prop
  | .tor t => t ∈ tree.tors ∧ (net.tor t).id = t
  | .core => False
  | .worker w => w ∈ tree.workers ∧ (net.worker w).id = w

structure OnTree (tree : Tree) (net : Network) (jobId : Nat) (leg : Leg) : Prop where
  route : ∃ queue, leg.route = some ⟨queue,leg.hop.dest⟩
  job : leg.hop.packet.jobId = jobId
  downward : leg.hop.packet.upward = false
  ends : Ends tree net leg.hop.dest

theorem arrive_tor (cfg : Config) (queues : Queues) (net : Network) (t : Nat) {p : Packet}
    (downward : p.upward = false) :
    arrive cfg queues net ⟨.tor t,p⟩ =
      multicast queues (net.tor t) ((net.tor t).multicastDownward p) p.jobId := by
  simp [arrive,Switch.receivePacket,downward]

section multicast
variable (topo : HierarchicalTopology) (tree : Tree) {net : Network} {jobId : Nat}
  (torOf : tree.torOf = topo.hostToRSwitch) (existing : ∀ w ∈ tree.workers, w < topo.noOfNodes)
  (wired : Wired tree jobId net)
include torOf existing wired

theorem tor_multicast (inside : t ∈ tree.tors) {p : Packet} (job : p.jobId = jobId) :
    (∀ leg ∈ multicast topo.linkAll (net.tor t) ((net.tor t).multicastDownward p) p.jobId,
      OnTree tree net jobId leg) ∧
    (multicast topo.linkAll (net.tor t) ((net.tor t).multicastDownward p) p.jobId).map Leg.hop =
      (tree.under t).map fun w =>
        ⟨.worker w,{ p with jobId := jobId, id := (net.tor t).id, upward := false }⟩ := by
  have layer := wired.torLayer t inside
  rw [multicast_eq,job,wired.torDownward t inside]
  constructor
  · intro leg member
    obtain ⟨w,below,rfl⟩ := List.mem_map.mp member
    obtain ⟨worker,home⟩ := tree.mem_under.mp below
    rw [torOf] at home
    have linked := (topo.linkAll_linked.torWorker t w).mpr ⟨existing w worker,home⟩
    obtain ⟨queue,found⟩ := Option.isSome_iff_exists.mp linked
    constructor
    case route =>
      exact ⟨queue,by simp [getSwitchSingleHopRoute,Switch.downwardNode,layer,
        wired.torId t inside,found]⟩
    case job => rfl
    case downward => rfl
    case ends =>
      rw [show (net.tor t).downwardNode w = .worker w by simp [Switch.downwardNode,layer]]
      exact ⟨worker,wired.workerId w worker⟩
  · rw [List.map_map]
    apply List.map_congr_left
    intro w _
    simp [Switch.downwardNode,layer]

theorem core_multicast (tall : tree.flat = false) {p : Packet} (job : p.jobId = jobId) :
    (∀ leg ∈ multicast topo.linkAll net.core (net.core.multicastDownward p) p.jobId,
      OnTree tree net jobId leg) ∧
    (multicast topo.linkAll net.core (net.core.multicastDownward p) p.jobId).map Leg.hop =
      tree.tors.map fun t =>
        ⟨.tor t,{ p with jobId := jobId, id := net.core.id, upward := false }⟩ := by
  have layer := wired.coreLayer
  rw [multicast_eq,job,wired.coreDownward tall]
  constructor
  · intro leg member
    obtain ⟨t,inside,rfl⟩ := List.mem_map.mp member
    obtain ⟨w,worker,home⟩ := (tree.involved t).mp inside
    have below : t < topo.ports := by
      rw [← home,torOf]
      exact topo.hostToRSwitch_lt (existing w worker)
    obtain ⟨queue,found⟩ := Option.isSome_iff_exists.mp
      ((topo.linkAll_linked.coreTor 0 t).mpr ⟨below,rfl⟩)
    constructor
    case route =>
      exact ⟨queue,by simp [getSwitchSingleHopRoute,Switch.downwardNode,layer,found]⟩
    case job => rfl
    case downward => rfl
    case ends =>
      rw [show net.core.downwardNode t = .tor t by simp [Switch.downwardNode,layer]]
      exact ⟨inside,wired.torId t inside⟩
  · rw [List.map_map]
    apply List.map_congr_left
    intro t _
    simp [Switch.downwardNode,layer]

theorem arrive_onTree (cfg : Config) (leg : Leg) (on : OnTree tree net jobId leg) :
    ∀ later ∈ arrive cfg topo.linkAll net leg.hop, OnTree tree net jobId later := by
  obtain ⟨⟨dest,p⟩,route⟩ := leg
  have ends := on.ends
  cases dest with
  | tor t =>
    rw [arrive_tor cfg topo.linkAll net t on.downward]
    exact (topo.tor_multicast tree torOf existing wired ends.1 on.job).1
  | core => exact ends.elim
  | worker w => exact fun _ none => absurd none List.not_mem_nil

theorem arrive_tors (cfg : Config) {p : Packet} (job : p.jobId = jobId)
    (downward : p.upward = false) :
    ((tree.tors.map fun t => ⟨.tor t,p⟩).flatMap (arrive cfg topo.linkAll net)).map Leg.hop =
      (tree.tors.flatMap tree.under).map fun w =>
        ⟨.worker w,{ p with jobId := jobId, id := (net.tor (tree.torOf w)).id, upward := false }⟩ := by
  rw [List.flatMap_map,List.map_flatMap,List.map_flatMap]
  apply List.flatMap_congr
  intro t inside
  rw [arrive_tor cfg topo.linkAll net t downward,
    (topo.tor_multicast tree torOf existing wired inside job).2]
  apply List.map_congr_left
  intro w below
  rw [(tree.mem_under.mp below).2]

end multicast

theorem flatMap_under_perm (tree : Tree) : (tree.tors.flatMap tree.under).Perm tree.workers := by
  apply (List.perm_ext_iff_of_nodup _ tree.workersDistinct).mpr
  · intro w
    rw [List.mem_flatMap]
    constructor
    · rintro ⟨t,_,below⟩
      exact (tree.mem_under.mp below).1
    · intro worker
      exact ⟨tree.torOf w,tree.torOf_mem worker,tree.mem_under.mpr ⟨worker,rfl⟩⟩
  · apply List.nodup_flatMap.mpr
    constructor
    · exact fun t _ => tree.under_distinct t
    · apply tree.torsDistinct.imp
      intro s t apart w first second
      exact apart ((tree.mem_under.mp first).2.symm.trans (tree.mem_under.mp second).2)

theorem arrive_workers (cfg : Config) (queues : Queues) (net : Network) (ws : List Nat)
    (packet : Nat → Packet) :
    (ws.map fun w => ⟨.worker w,packet w⟩).flatMap (arrive cfg queues net) = [] ∧
      (ws.map fun w => ⟨.worker w,packet w⟩).filterMap reached = ws := by
  induction ws with
  | nil => exact ⟨rfl,rfl⟩
  | cons w rest ih => exact ⟨ih.1,congrArg (List.cons w) ih.2⟩

/-- A multicast by the top-level switch reaches every worker of the job once. -/
theorem cascade_reaches (topo : HierarchicalTopology) (tree : Tree) {net : Network} {jobId : Nat}
    (torOf : tree.torOf = topo.hostToRSwitch) (existing : ∀ w ∈ tree.workers, w < topo.noOfNodes)
    (wired : Wired tree jobId net) (cfg : Config) {sw : Switch}
    (top : tree.flat = false ∧ sw = net.core ∨ tree.flat = true ∧ ∃ t ∈ tree.tors, sw = net.tor t)
    {p : Packet} (job : p.jobId = jobId) (n : Nat) :
    let legs := cascade cfg topo.linkAll net (n+1)
      (multicast topo.linkAll sw (sw.multicastDownward p) p.jobId)
    (∀ leg ∈ legs, OnTree tree net jobId leg) ∧
      ((legs.map Leg.hop).filterMap reached).Perm tree.workers := by
  have whole := flatMap_under_perm tree
  rcases top with ⟨tall,rfl⟩ | ⟨short,t,inside,rfl⟩
  · obtain ⟨on,hops⟩ := topo.core_multicast tree torOf existing wired tall job
    refine ⟨cascade_all on (topo.arrive_onTree tree torOf existing wired cfg),?_⟩
    have above (tors : List Nat) (q : Packet) :
        (tors.map fun t => (⟨.tor t,q⟩ : Hop)).filterMap reached = [] := by
      induction tors with
      | nil => rfl
      | cons t rest ih => exact ih
    have below := topo.arrive_tors tree torOf existing wired cfg
      (p := { p with jobId := jobId, id := net.core.id, upward := false }) rfl rfl
    obtain ⟨stop,ws⟩ := arrive_workers cfg topo.linkAll net (tree.tors.flatMap tree.under) fun w =>
      { p with jobId := jobId, id := (net.tor (tree.torOf w)).id, upward := false }
    rw [cascade,List.map_append,List.filterMap_append,hops,above,List.nil_append]
    cases n with
    | zero => rw [cascade,below,ws]; exact whole
    | succ n => rw [cascade,below,stop,cascade_nil,List.append_nil,below,ws]; exact whole
  · obtain ⟨on,hops⟩ := topo.tor_multicast tree torOf existing wired inside job
    refine ⟨cascade_all on (topo.arrive_onTree tree torOf existing wired cfg),?_⟩
    have only : tree.tors = [t] := by
      have few : tree.tors.length ≤ 1 := by simpa [Tree.flat] using short
      obtain ⟨s,rfl'⟩ := List.length_eq_one_iff.mp (le_antisymm few (List.length_pos_of_mem inside))
      rw [rfl'] at inside ⊢
      rw [List.mem_singleton.mp inside]
    have all : tree.under t = tree.tors.flatMap tree.under := by simp [only]
    obtain ⟨stop,ws⟩ := arrive_workers cfg topo.linkAll net (tree.under t) fun _ =>
      { p with jobId := jobId, id := (net.tor t).id, upward := false }
    rw [cascade,hops,stop,cascade_nil,List.append_nil,hops,ws,all]
    exact whole

/-- What a switch's counter holds after `k` contributions. A top-level switch replaces the zero
that closes a round by `n_workers`. -/
def counterAfter (top : Bool) (nWorkers numUpdates start : Nat) : Nat → Nat
  | 0 => start
  | k+1 =>
    let counted :=
      Switch.nextCount (counterAfter top nWorkers numUpdates start k) nWorkers numUpdates
    if top && counted == 0 then nWorkers else counted

theorem next_mod (positive : 0 < m) (k : Nat) :
    (k+1) % m = if k % m + 1 = m then 0 else k % m + 1 := by
  have bound := Nat.mod_lt k positive
  rw [← Nat.mod_add_mod]
  split
  · rename_i full
    rw [full,Nat.mod_self]
  · exact Nat.mod_eq_of_lt (by omega)

theorem counterAfter_load (top : Bool) (children : m ≤ n) (nonempty : 0 < m) (several : 2 ≤ n)
    (few : n + 1 < 2^32) (start : c = 0 ∨ c = n) (k : Nat) :
    counterAfter top n m c k ≤ n ∧ Switch.load n (counterAfter top n m c k) = k % m := by
  induction k with
  | zero =>
    rw [Nat.zero_mod]
    rcases start with rfl | rfl
    · exact ⟨Nat.zero_le n,ite_self _⟩
    · exact ⟨Nat.le_refl _,if_pos rfl⟩
  | succ k ih =>
    obtain ⟨small,load⟩ := ih
    have room : Switch.load n (counterAfter top n m c k) < m := load ▸ Nat.mod_lt k nonempty
    have next := Switch.nextCount_eq children several few room small
    rw [load] at next room
    rw [next_mod nonempty,counterAfter,next]
    unfold Switch.load
    grind

/-- The counter returns to zero at every `m`-th contribution and at no other. -/
theorem counter_returns (top : Bool) (children : m ≤ n) (nonempty : 0 < m) (few : n + 1 < 2^32)
    (start : c = 0 ∨ c = n) (k : Nat) :
    Switch.nextCount (counterAfter top n m c k) n m = 0 ↔ m ∣ k+1 := by
  rcases Nat.lt_or_ge n 2 with single | several
  · obtain rfl : m = 1 := by omega
    simp [Switch.nextCount,Nat.mod_one]
  · obtain ⟨small,load⟩ := counterAfter_load top children nonempty several few start k
    have room : Switch.load n (counterAfter top n m c k) < m := load ▸ Nat.mod_lt k nonempty
    rw [Switch.nextCount_eq children several few room small,load,Nat.dvd_iff_mod_eq_zero,
      next_mod nonempty]

theorem setSwitchNumUpdates_top (topo : HierarchicalTopology) (jobId : Nat)
    (wids torOrder : List Nat) (absent : t ∉ torOrder) :
    ((topo.setSwitchNumUpdates jobId wids torOrder topo.initNetwork).tor t).topLevelForJob.get
      jobId = false := by
  have wire (s : Wiring) (w : Nat) :
      (((topo.wireWorker jobId s w).net.tor t).topLevelForJob) = (s.net.tor t).topLevelForJob := by
    rcases eq_or_ne t (topo.hostToRSwitch w) with rfl | other
    · simp only [wireWorker,Network.setTor_same]
      split <;> rfl
    · simp only [wireWorker,Network.setTor_other _ _ other]
      split <;> rfl
  have wires (s : Wiring) : ((wids.foldl (topo.wireWorker jobId) s).net.tor t).topLevelForJob =
      (s.net.tor t).topLevelForJob := by
    induction wids generalizing s with
    | nil => rfl
    | cons w rest ih => rw [List.foldl_cons,ih,wire]
  have kept (update : Network → Nat → Network)
      (keeps : ∀ net u, t ≠ u → (update net u).tor t = net.tor t) (net : Network) :
      (torOrder.foldl update net).tor t = net.tor t := by
    induction torOrder generalizing net with
    | nil => rfl
    | cons u rest ih =>
      obtain ⟨other,absent⟩ := not_or.mp (mt List.mem_cons.mpr absent)
      rw [List.foldl_cons,ih absent,keeps net u other]
  have start := congrArg (fun top : Table Nat Bool => top.get jobId)
    (wires ⟨topo.initNetwork,default,[]⟩)
  unfold setSwitchNumUpdates
  dsimp only
  split
  · rw [kept (wireTor jobId (torOrder.headD 0)) fun net u other => Network.setTor_other _ _ other]
    exact start
  · rw [kept (wireTop jobId) fun net u other => Network.setTor_other _ _ other]
    exact start

end HierarchicalTopology

open HierarchicalTopology in
/-- What the four parts of the code say about one placed job. -/
structure TreesAgree (cfg : Config) (topo : HierarchicalTopology) (jobId : Nat)
    (wids torOrder : List Nat) (net : Network) : Prop where
  tors : ∀ t < topo.ports, topo.construct.torSwitches t = some (topo.initNetwork.tor t)
  workers : ∀ w < topo.ports * (topo.ports - 1),
    topo.construct.workers w = some (topo.initNetwork.worker w)
  machines : ∀ t ∈ torOrder, (net.tor t).numUpdatesForJob.get jobId =
    (topo.construct.machines.get t).countP fun w => decide (w ∈ wids)
  downward : ∀ t ∈ torOrder, ((net.tor t).downwardIdsForJob.get jobId).Nodup ∧
    (net.tor t).numUpdatesForJob.get jobId = ((net.tor t).downwardIdsForJob.get jobId).length
  torTop : ∀ t, (net.tor t).topLevelForJob.get jobId = true ↔ t ∈ torOrder ∧ torOrder.length ≤ 1
  coreTop : net.core.topLevelForJob.get jobId = true ↔ 1 < torOrder.length
  core : 1 < torOrder.length → (net.core.downwardIdsForJob.get jobId).Nodup ∧
    net.core.numUpdatesForJob.get jobId = (net.core.downwardIdsForJob.get jobId).length ∧
    net.core.numUpdatesForJob.get jobId = torOrder.length
  reaches : ∀ sw, sw = net.core ∨ (∃ t, sw = net.tor t) →
    sw.topLevelForJob.get jobId = true → ∀ (p : Packet) (n : Nat), p.jobId = jobId →
    let legs := cascade cfg topo.linkAll net (n+1)
      (multicast topo.linkAll sw (sw.multicastDownward p) p.jobId)
    ((legs.map Leg.hop).filterMap reached).Perm wids ∧
    ∀ leg ∈ legs, (∃ queue, leg.route = some ⟨queue,leg.hop.dest⟩) ∧
      match leg.hop.dest with
      | .tor t => t ∈ torOrder ∧ (net.tor t).id = t
      | .core => False
      | .worker w => w ∈ wids ∧ (net.worker w).id = w
  cached : ∀ (sw : Switch) ids cache, Faithful topo.linkAll sw cache →
    (cachedRoutes topo.linkAll sw ids cache).1 = routes topo.linkAll sw ids ∧
    Faithful topo.linkAll sw (cachedRoutes topo.linkAll sw ids cache).2
  counter : ∀ sw, (1 < torOrder.length ∧ sw = net.core) ∨ (∃ t ∈ torOrder, sw = net.tor t) →
    ∀ top start k, start = 0 ∨ start = wids.length →
    (Switch.nextCount (counterAfter top wids.length (sw.numUpdatesForJob.get jobId) start k)
      wids.length (sw.numUpdatesForJob.get jobId) = 0 ↔ sw.numUpdatesForJob.get jobId ∣ k+1)

/-- Aggregation counts, multicast and counters agree for every placement on a fresh network. -/
theorem aggregation_and_multicast_agree (cfg : Config) (topo : HierarchicalTopology) (jobId : Nat)
    (wids torOrder : List Nat) (distinct : wids.Nodup)
    (existing : ∀ w ∈ wids, w < topo.ports * (topo.ports - 1)) (torsDistinct : torOrder.Nodup)
    (involved : ∀ t, t ∈ torOrder ↔ ∃ w ∈ wids, topo.hostToRSwitch w = t) :
    TreesAgree cfg topo jobId wids torOrder
      (topo.setSwitchNumUpdates jobId wids torOrder topo.initNetwork) := by
  let tree : Tree := ⟨wids,torOrder,topo.hostToRSwitch,distinct,torsDistinct,involved⟩
  have constructed := topo.construct_constructed
  have small : wids.length + 1 < 2^32 := by
    have few := topo.wids_length_lt distinct existing
    omega
  have wired : Wired tree jobId (topo.setSwitchNumUpdates jobId wids torOrder topo.initNetwork) :=
    topo.setSwitchNumUpdates_wired tree rfl topo.initNetwork_built (topo.initNetwork_unplaced jobId)
      (by change wids.length < _; omega)
  have elsewhere {t : Nat} := topo.setSwitchNumUpdates_top (t := t) jobId wids torOrder
  have coreTop : (topo.setSwitchNumUpdates jobId wids torOrder
      topo.initNetwork).core.topLevelForJob.get jobId = true ↔ 1 < torOrder.length := by
    unfold HierarchicalTopology.setSwitchNumUpdates
    split <;> simp [*]
  generalize topo.setSwitchNumUpdates jobId wids torOrder topo.initNetwork = net at *
  have flat : tree.flat = true ↔ torOrder.length ≤ 1 := by simp [Tree.flat,tree]
  have tall : tree.flat = false ↔ 1 < torOrder.length := by simp [Tree.flat,tree]
  have torTop (t : Nat) : (net.tor t).topLevelForJob.get jobId = true ↔
      t ∈ torOrder ∧ torOrder.length ≤ 1 := by
    by_cases inside : t ∈ torOrder
    · rw [wired.torTop t inside,flat]
      simp [inside]
    · simp [elsewhere inside,inside]
  constructor
  case tors => exact fun t below => (constructed.torSwitches t).trans (if_pos below)
  case workers => exact fun w below => (constructed.workers w).trans (if_pos below)
  case machines =>
    intro t inside
    rw [wired.torUpdates t inside,constructed.machines,List.countP_filter,
      List.countP_eq_length_filter]
    apply List.Perm.length_eq
    apply (List.perm_ext_iff_of_nodup (tree.under_distinct t) (List.nodup_range.filter _)).mpr
    intro w
    rw [tree.mem_under,List.mem_filter,List.mem_range]
    constructor
    · rintro ⟨member,rfl⟩
      exact ⟨existing w member,by simpa [tree] using member⟩
    · rintro ⟨_,both⟩
      simpa [tree] using both
  case downward =>
    intro t inside
    rw [wired.torUpdates t inside,wired.torDownward t inside]
    exact ⟨tree.under_distinct t,rfl⟩
  case torTop => exact torTop
  case coreTop => exact coreTop
  case core =>
    intro several
    rw [wired.coreUpdates (tall.mpr several),wired.coreDownward (tall.mpr several)]
    exact ⟨torsDistinct,rfl,rfl⟩
  case reaches =>
    intro sw found top p n job
    have start : tree.flat = false ∧ sw = net.core ∨
        tree.flat = true ∧ ∃ t ∈ tree.tors, sw = net.tor t := by
      rcases found with rfl | ⟨t,rfl⟩
      · exact .inl ⟨tall.mpr (coreTop.mp top),rfl⟩
      · obtain ⟨inside,few⟩ := (torTop t).mp top
        exact .inr ⟨flat.mpr few,t,inside,rfl⟩
    obtain ⟨on,once⟩ := topo.cascade_reaches tree rfl existing wired cfg start job n
    refine ⟨once,fun leg member => ⟨(on leg member).route,?_⟩⟩
    exact (on leg member).ends
  case cached => exact fun sw ids cache faithful => HierarchicalTopology.cachedRoutes_faithful faithful
  case counter =>
    intro sw found top start k begins
    have bounds : sw.numUpdatesForJob.get jobId ≤ wids.length ∧
        0 < sw.numUpdatesForJob.get jobId := by
      rcases found with ⟨several,rfl⟩ | ⟨t,inside,rfl⟩
      · rw [wired.coreUpdates (tall.mpr several)]
        exact ⟨tree.tors_length_le,Nat.lt_trans Nat.zero_lt_one several⟩
      · rw [wired.torUpdates t inside]
        exact ⟨tree.under_length_le t,tree.under_nonempty inside⟩
    exact HierarchicalTopology.counter_returns top bounds.1 bounds.2 small begins k

/-- Workers 2, 0 and 5 of the network with three ports. -/
theorem aggregation_and_multicast_agree_three_workers :
    TreesAgree ⟨1,1,0,fun _ _ => 0⟩ ⟨3,by decide,by decide⟩ 0 [2,0,5] [1,0,2]
      (HierarchicalTopology.setSwitchNumUpdates ⟨3,by decide,by decide⟩ 0 [2,0,5] [1,0,2]
        (HierarchicalTopology.initNetwork ⟨3,by decide,by decide⟩)) :=
  aggregation_and_multicast_agree _ ⟨3,by decide,by decide⟩ 0 [2,0,5] [1,0,2] (by decide)
    (by decide) (by decide) (fun t => by
      simp only [HierarchicalTopology.hostToRSwitch,List.mem_cons,List.not_mem_nil,or_false,
        exists_eq_or_imp,exists_eq_left]
      omega)

end CloudSim
