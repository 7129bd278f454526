import CloudSim.Cabling
import CloudSim.SimpleQueue
import CloudSim.Runs

/-! The queues of a network on one event list. A packet that leaves a queue is handed to the object
behind it at once, and what that object sends is in other queues before the queue goes on. -/
namespace CloudSim

/-- What a topology fixes: the parameters that all its queues share, and the routes. -/
structure Cabling where
  cfg : Config
  spec : QueueSpec Hop
  route : Node → Node → Option Route

structure QueueNetwork where
  events : EventList Nat := {}
  queues : Nat → SimpleQueue Hop := fun _ => {}
  net : Network
  objs : Objects
  frontOfEmpty : Bool := false

/-- Between two events the rest of the program may send any packet along any route, and `change`
the objects in any way. -/
inductive QueueLabel where
  | tick (d : Nat)
  | sendOnSimple (src : Node) (hop : Hop)
  | doNextEvent (queue : Nat)
  | change (net : Network) (objs : Objects)

namespace QueueNetwork

def receivePacket (c : Cabling) (s : QueueNetwork) (queue : Nat) (hop : Hop) : QueueNetwork :=
  let result := (s.queues queue).receivePacket c.spec s.events.now hop
  { s with
    queues := Function.update s.queues queue result.1
    events := match result.2 with
      | some delay => s.events.sourceIsPendingRel queue delay
      | none => s.events }

/-- A new packet enters the queue of its route. There is nothing behind a null pointer. -/
def sendOnSimple (c : Cabling) (src : Node) (s : QueueNetwork) (hop : Hop) : Option QueueNetwork :=
  (c.route src hop.dest).map fun route =>
    s.receivePacket c route.queue ⟨route.last,hop.packet⟩

/-- The object at the end of a route receives the packet, and sends others. -/
def deliver (c : Cabling) (s : QueueNetwork) (hop : Hop) : Option QueueNetwork :=
  match hop.dest with
  | .tor t =>
    let result := (s.net.tor t).receivePacket c.cfg hop.packet
    result.sent.foldlM (sendOnSimple c (.tor t)) { s with net := s.net.setTor t result.switch }
  | .core =>
    let result := s.net.core.receivePacket c.cfg hop.packet
    result.sent.foldlM (sendOnSimple c .core) { s with net := { s.net with core := result.switch } }
  | .worker w =>
    let result := (s.net.worker w).receivePacket c.cfg s.objs hop.packet
    result.sent.foldlM (sendOnSimple c (.worker w))
      { s with net := s.net.setWorker w result.worker }

/-- The end of `doNextEvent`: the packet that is in front now begins. -/
def rearm (c : Cabling) (s : QueueNetwork) (queue : Nat) : QueueNetwork :=
  match (s.queues queue).enqueued with
  | [] => s
  | front :: _ => { s with events := s.events.sourceIsPendingRel queue (c.spec.drainTime front) }

def doNextEvent (c : Cabling) (s : QueueNetwork) (queue : Nat) : Option QueueNetwork :=
  match (s.queues queue).enqueued with
  | [] => some { s with frontOfEmpty := true }
  | front :: rest =>
    let q := (s.queues queue).pop c.spec s.events.now front rest
    (deliver c { s with queues := Function.update s.queues queue q } front).map fun s =>
      s.rearm c queue

/-- Nothing is known of a run that has read the front of an empty queue. -/
def step (c : Cabling) (l : QueueLabel) (s : QueueNetwork) : Option QueueNetwork :=
  if s.frontOfEmpty then none
  else match l with
    | .tick d => (s.events.tick d).map fun events => { s with events := events }
    | .sendOnSimple src hop => s.sendOnSimple c src hop
    | .doNextEvent queue =>
      (s.events.fire queue).bind fun events => doNextEvent c { s with events := events } queue
    | .change net objs => some { s with net := net, objs := objs }

/-- The packets of the queue are served, and its event is pending. -/
def Serves (c : Cabling) (s : QueueNetwork) (i : Nat) : Prop :=
  ∃ served waiting,
    SimpleQueue.Served c.spec s.events.now (s.events.due i) (s.queues i) served waiting

/-- Every packet in a queue goes to the end of the link that the queue is on. -/
def OnRoutes (c : Cabling) (s : QueueNetwork) : Prop :=
  ∀ i, ∀ hop ∈ (s.queues i).enqueued,
    ∃ a b r, c.route a b = some r ∧ r.queue = i ∧ r.last = hop.dest

structure Sound (c : Cabling) (s : QueueNetwork) : Prop where
  front : s.frontOfEmpty = false
  serves : ∀ i, Serves c s i
  onRoutes : OnRoutes c s

/-- While the packet that has left queue `i` is passed on, nothing happens to this queue. -/
structure Passing (c : Cabling) (i now : Nat) (q : SimpleQueue Hop) (s : QueueNetwork) : Prop where
  front : s.frontOfEmpty = false
  own : s.queues i = q
  unarmed : s.events.due i = []
  time : s.events.now = now
  serves : ∀ k ≠ i, Serves c s k
  onRoutes : OnRoutes c s

variable {c : Cabling} {s t : QueueNetwork} {i queue : Nat} {hop : Hop}

@[simp] theorem receivePacket_now : (s.receivePacket c queue hop).events.now = s.events.now := by
  simp only [receivePacket]
  split <;> rfl

theorem receivePacket_queue : (s.receivePacket c queue hop).queues queue =
    ((s.queues queue).receivePacket c.spec s.events.now hop).1 := Function.update_self _ _ _

theorem receivePacket_other (apart : i ≠ queue) :
    (s.receivePacket c queue hop).queues i = s.queues i ∧
      (s.receivePacket c queue hop).events.due i = s.events.due i := by
  constructor
  · exact Function.update_of_ne apart _ _
  · simp only [receivePacket]
    split
    · exact EventList.due_sourceIsPendingRel_other apart _
    · rfl

theorem receivePacket_serves_own (small : ∀ hop, c.spec.size hop < 2^16)
    (serves : Serves c s queue) : Serves c (s.receivePacket c queue hop) queue := by
  obtain ⟨served,waiting,kept⟩ := serves
  unfold Serves
  rw [receivePacket_now,receivePacket_queue]
  rcases SimpleQueue.receivePacket_eq kept hop with ⟨full,result⟩ | ⟨fits,result⟩
  · have unarmed : (s.receivePacket c queue hop).events.due queue = s.events.due queue := by
      simp only [receivePacket,result]
    rw [unarmed,result]
    exact ⟨served,waiting,kept.drop full⟩
  · have armed : (s.receivePacket c queue hop).events.due queue =
        if (s.queues queue).enqueued = [] then [s.events.now + c.spec.drainTime hop]
        else s.events.due queue := by
      simp only [receivePacket,result]
      by_cases empty : (s.queues queue).enqueued = []
      · have none : waiting = [] := List.map_eq_nil_iff.mp (kept.enqueued ▸ empty)
        have unarmed := kept.due
        rw [none] at unarmed
        simp [empty,unarmed]
      · simp [empty]
    rw [result]
    exact ⟨served,_,kept.take (small hop) fits armed⟩

theorem receivePacket_onRoutes (onRoutes : OnRoutes c s) (found : c.route a b = some r)
    (p : Packet) : OnRoutes c (s.receivePacket c r.queue ⟨r.last,p⟩) := by
  intro i hop' member
  by_cases here : i = r.queue
  · subst here
    rw [receivePacket_queue] at member
    rcases SimpleQueue.mem_receivePacket _ member with old | rfl
    · exact onRoutes _ hop' old
    · exact ⟨a,b,r,found,rfl,rfl⟩
  · rw [(receivePacket_other here).1] at member
    exact onRoutes i hop' member

theorem Serves.other (serves : Serves c s i) (now : t.events.now = s.events.now)
    (same : t.queues i = s.queues i ∧ t.events.due i = s.events.due i) : Serves c t i := by
  unfold Serves
  rwa [now,same.1,same.2]

theorem receivePacket_serves (small : ∀ hop, c.spec.size hop < 2^16) (serves : Serves c s i) :
    Serves c (s.receivePacket c queue hop) i := by
  by_cases here : i = queue
  · subst here
    exact receivePacket_serves_own small serves
  · exact serves.other receivePacket_now (receivePacket_other here)

theorem sendOnSimple_sound (small : ∀ hop, c.spec.size hop < 2^16) (sound : Sound c s) {src : Node}
    (sent : s.sendOnSimple c src hop = some t) : Sound c t := by
  obtain ⟨r,found,rfl⟩ := Option.map_eq_some_iff.mp sent
  exact ⟨sound.front,fun i => receivePacket_serves small (sound.serves i),
    receivePacket_onRoutes sound.onRoutes found _⟩

/-- A packet that is sent while another one is passed on enters another queue. -/
theorem sendOnSimple_passing (small : ∀ hop, c.spec.size hop < 2^16) {src : Node}
    (away : ∀ b r, c.route src b = some r → r.queue ≠ i) (passing : Passing c i now q s)
    (sent : s.sendOnSimple c src hop = some t) : Passing c i now q t := by
  obtain ⟨r,found,rfl⟩ := Option.map_eq_some_iff.mp sent
  have apart : i ≠ r.queue := (away _ r found).symm
  have own : (s.receivePacket c r.queue ⟨r.last,hop.packet⟩).queues i = s.queues i ∧
      (s.receivePacket c r.queue ⟨r.last,hop.packet⟩).events.due i = s.events.due i :=
    receivePacket_other apart
  constructor
  case front => exact passing.front
  case own => exact own.1.trans passing.own
  case unarmed => exact own.2.trans passing.unarmed
  case time => exact receivePacket_now.trans passing.time
  case onRoutes => exact receivePacket_onRoutes passing.onRoutes found _
  case serves => exact fun k other => receivePacket_serves small (passing.serves k other)

/-- What the object behind a queue sends does not come back to the queue. -/
theorem deliver_passing (one : OneLinkEach c.route) (small : ∀ hop, c.spec.size hop < 2^16)
    (passing : Passing c i now q s)
    (came : ∃ a b r, c.route a b = some r ∧ r.queue = i ∧ r.last = hop.dest)
    (delivered : s.deliver c hop = some t) : Passing c i now q t := by
  obtain ⟨a,b,r,found,rfl,last⟩ := came
  have away (d : Node) (r' : Route) (also : c.route hop.dest d = some r') : r'.queue ≠ r.queue := by
    intro same
    obtain ⟨back,_⟩ := one.own _ _ _ _ _ _ also found same
    exact one.apart a b r found (back.symm.trans last.symm)
  unfold deliver at delivered
  split at delivered
  all_goals
    rename_i dest
    rw [dest] at away
    refine Runs.foldlM_invariant
      (fun _ _ _ before sent => sendOnSimple_passing small away before sent) delivered ?_
    exact { passing with serves := passing.serves, onRoutes := passing.onRoutes }

/-- The queue goes on after the packet that has left it was passed on. -/
theorem rearm_sound (passing : Passing c i now q s) (armed : ∃ served waiting,
      SimpleQueue.Served c.spec now (SimpleQueue.begun c.spec now q.enqueued) q served waiting) :
    Sound c (s.rearm c i) := by
  have own := passing.own
  have unarmed := passing.unarmed
  have time := passing.time
  have onRoutes := passing.onRoutes
  unfold rearm
  split
  · rename_i empty
    refine ⟨passing.front,fun k => ?_,onRoutes⟩
    by_cases here : k = i
    · subst here
      rw [own] at empty
      simp only [empty,SimpleQueue.begun,List.take_nil,List.map_nil] at armed
      unfold Serves
      rwa [time,unarmed,own]
    · exact passing.serves k here
  · rename_i front rest shape
    refine ⟨passing.front,fun k => ?_,onRoutes⟩
    by_cases here : k = i
    · subst here
      rw [own] at shape
      simp only [shape,SimpleQueue.begun,List.take_succ_cons,List.take_zero,List.map_cons,
        List.map_nil] at armed
      unfold Serves
      simpa [unarmed,own,time] using armed
    · exact (passing.serves k here).other rfl ⟨rfl,EventList.due_sourceIsPendingRel_other here _⟩

theorem doNextEvent_sound (one : OneLinkEach c.route) (small : ∀ hop, c.spec.size hop < 2^16)
    (sound : Sound c s) {ev : EventList Nat} (fired : s.events.fire queue = some ev)
    (taken : doNextEvent c { s with events := ev } queue = some t) : Sound c t := by
  obtain ⟨time,timely,used,others⟩ := EventList.fire_spec fired
  obtain ⟨served,waiting,kept⟩ := sound.serves queue
  obtain ⟨front,rest,shape,armed,next⟩ := kept.pop timely small
  have onRoutes := sound.onRoutes
  simp only [doNextEvent,shape] at taken
  obtain ⟨u,delivered,rfl⟩ := Option.map_eq_some_iff.mp taken
  rw [← time] at next
  have passing : Passing c queue ev.now ((s.queues queue).pop c.spec ev.now front rest)
      { s with
        events := ev
        queues := Function.update s.queues queue ((s.queues queue).pop c.spec ev.now front rest) } := by
    constructor
    case front => exact sound.front
    case own => exact Function.update_self _ _ _
    case unarmed => exact used.trans (by simp [armed])
    case time => rfl
    case serves =>
      intro k other
      exact (sound.serves k).other time ⟨Function.update_of_ne other _ _,others k other⟩
    case onRoutes =>
      intro k hop member
      dsimp only at member
      by_cases here : k = queue
      · subst here
        rw [Function.update_self] at member
        exact onRoutes k hop (shape ▸ List.mem_cons_of_mem _ member)
      · rw [Function.update_of_ne here] at member
        exact onRoutes k hop member
  have came := onRoutes queue front (by simp [shape])
  exact rearm_sound (deliver_passing one small passing came delivered) next

theorem step_sound (one : OneLinkEach c.route) (small : ∀ hop, c.spec.size hop < 2^16)
    (l : QueueLabel) (s t : QueueNetwork) (sound : Sound c s) (taken : step c l s = some t) :
    Sound c t := by
  unfold step at taken
  rw [if_neg (Bool.eq_false_iff.mp sound.front)] at taken
  cases l with
  | tick d =>
    obtain ⟨events,ticked,rfl⟩ := Option.map_eq_some_iff.mp taken
    obtain ⟨later,same,early⟩ := EventList.tick_spec ticked
    refine ⟨sound.front,fun i => ?_,sound.onRoutes⟩
    obtain ⟨served,waiting,kept⟩ := sound.serves i
    refine ⟨served,waiting,?_⟩
    have early := early i
    dsimp only
    rw [same] at early ⊢
    exact kept.tick (by omega) early
  | sendOnSimple src hop => exact sendOnSimple_sound small sound taken
  | doNextEvent queue =>
    obtain ⟨events,fired,taken⟩ := Option.bind_eq_some_iff.mp taken
    exact doNextEvent_sound one small sound fired taken
  | change net objs =>
    cases taken
    exact ⟨sound.front,sound.serves,sound.onRoutes⟩

/-- The routes of the networks that the topologies build. -/
inductive Built : (Node → Node → Option Route) → Prop where
  | hierarchical (topo : HierarchicalTopology) : Built topo.routeFrom
  | custom (nodes : Nat) : Built (CustomTopology.routeFrom nodes)

theorem Built.oneLinkEach {route : Node → Node → Option Route} (built : Built route) :
    OneLinkEach route := by
  cases built with
  | hierarchical topo => exact topo.routeFrom_oneLinkEach
  | custom nodes => exact CustomTopology.routeFrom_oneLinkEach nodes

theorem initial_sound (c : Cabling) (net : Network) (objs : Objects) :
    Sound c { net := net, objs := objs } where
  front := rfl
  serves _ := ⟨[],[],SimpleQueue.initial_served c.spec 0⟩
  onRoutes _ _ member := by cases member

/-- Every queue of the network is a tail-drop server with one event at a time, and no queue reads
the front of an empty one. -/
theorem queues_drop_tail (c : Cabling) (built : Built c.route)
    (small : ∀ hop, c.spec.size hop < 2^16) (net : Network) (objs : Objects) (s : QueueNetwork)
    (run : Runs.Run (step c) Runs.anyStep { net := net, objs := objs } s) :
    s.frontOfEmpty = false ∧
      ∀ i, SimpleQueue.TailDrop c.spec s.events.now (s.events.due i) (s.queues i) := by
  have preserved (l : QueueLabel) (s t : QueueNetwork) (sound : Sound c s) (_ : Runs.anyStep l s)
      (taken : step c l s = some t) : Sound c t :=
    step_sound built.oneLinkEach small l s t sound taken
  have sound := run.invariant preserved (initial_sound c net objs)
  refine ⟨sound.front,fun i => ?_⟩
  obtain ⟨served,waiting,kept⟩ := sound.serves i
  exact kept.tailDrop

/-- Two workers below one ToR. A packet takes three time units, and two fit into a queue. -/
def twoWorkers : Cabling where
  cfg := { numSlots := 3, numUpdates := 1, chunkSize := 3, getKey := fun job tensor => job + tensor }
  spec := { bitrate := 8000000000000, maxsize := 6, size := fun _ => 3 }
  route := CustomTopology.routeFrom 2

def aggregating : Network where
  tor _ := {
    id := 0
    layer := 0
    downwardIdsForJob := (default : Table Nat (List Nat)).put 0 [0,1]
    numUpdatesForJob := (default : Table Nat Nat).put 0 2
    topLevelForJob := (default : Table Nat Bool).put 0 true }
  core := { id := 2, layer := 1 }
  worker w := { id := w, tor := 0 }

def objects : Objects where
  tensor _ := { size := 3, numPktsExpected := 3 }
  numWorkersAllocated _ := 2
  modelSize _ := 1

/-- Worker `w` sends the packet of a slot. -/
def contribute (w slot : Nat) : QueueLabel :=
  .sendOnSimple (.worker w) (Worker.sendPacket objects { id := w, tor := 0 } slot 0 slot 3 ⟨w,0,0⟩)

/-- The last packet of worker 0 is dropped. When both first packets are at the ToR, its results are
in the queues to the workers before the second queue goes on. -/
theorem queues_drop_tail_two_workers :
    ∃ s : QueueNetwork,
      Runs.Run (step twoWorkers) Runs.anyStep { net := aggregating, objs := objects } s ∧
      ((s.queues 1).offers.map Offer.taken = [true,true,false] ∧ s.events.due 1 = [6] ∧
        (s.queues 3).left.map Prod.fst = [3] ∧ s.events.due 0 = [6] ∧ s.events.due 2 = [6]) ∧
      s.frontOfEmpty = false ∧
      ∀ i, SimpleQueue.TailDrop twoWorkers.spec s.events.now (s.events.due i) (s.queues i) := by
  have ends : (Runs.exec (step twoWorkers) Runs.anyStep
      [contribute 0 0,contribute 0 1,contribute 0 2,contribute 1 0,.tick 3,.doNextEvent 1,
        .doNextEvent 3] { net := aggregating, objs := objects }).map
      (fun s => decide ((s.queues 1).offers.map Offer.taken = [true,true,false] ∧
        s.events.due 1 = [6] ∧ (s.queues 3).left.map Prod.fst = [3] ∧ s.events.due 0 = [6] ∧
        s.events.due 2 = [6])) = some true := by decide +kernel
  obtain ⟨s,run,view⟩ := Runs.exists_run_of_exec ends
  exact ⟨s,run,of_decide_eq_true view,
    queues_drop_tail twoWorkers (.custom 2) (fun _ => show 3 < 2^16 by decide) aggregating objects s run⟩

end QueueNetwork
end CloudSim
