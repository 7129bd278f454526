import CloudSim.Deployment
import CloudSim.QueueNetwork
import Mathlib.Algebra.Order.BigOperators.Group.List

/-! A program whose packets cross the queues of a network. The program itself keeps its packets in
a bag, from which any of them may be delivered next; here every packet is in the queue of its link. -/
namespace CloudSim

def Hop.sender (hop : Hop) : Node :=
  match hop.dest with
  | .core | .worker _ => .tor hop.packet.id
  | .tor _ => if hop.packet.upward then .worker hop.packet.id else .core

namespace Switch
variable {cfg : Config} {sw : Switch} {p : Packet}

/-- What a switch sends: nothing, a multicast, or one packet to the level above. -/
theorem sent_cases (cfg : Config) (sw : Switch) (p : Packet) :
    (sw.receivePacket cfg p).sent = [] ∨
      ((sw.receivePacket cfg p).sent = sw.multicastDownward p ∧
        (p.upward = true → sw.topLevelForJob.get p.jobId = true)) ∨
      (sw.receivePacket cfg p).sent = [sw.unicastUpward p] ∧ p.upward = true ∧
        sw.topLevelForJob.get p.jobId = false := by
  simp only [receivePacket,contribute]
  split
  · rename_i upward
    split
    · exact Or.inl rfl
    · split
      · exact Or.inl rfl
      · split
        · rename_i top
          exact Or.inr (Or.inl ⟨rfl,fun _ => top⟩)
        · rename_i inner
          exact Or.inr (Or.inr ⟨rfl,upward,Bool.eq_false_iff.mpr inner⟩)
  · rename_i downward
    exact Or.inr (Or.inl ⟨rfl,fun upward => absurd upward downward⟩)

theorem sender_multicast (member : hop ∈ sw.multicastDownward p) :
    hop.sender = if sw.layer = 1 then .core else .tor sw.id := by
  obtain ⟨dest,_,rfl⟩ := List.mem_map.mp member
  by_cases core : sw.layer = 1 <;> simp [downwardNode,Hop.sender,core]

theorem sender_of_tor (layer : sw.layer = 0) (member : hop ∈ (sw.receivePacket cfg p).sent) :
    hop.sender = .tor sw.id := by
  rcases sent_cases cfg sw p with none | ⟨many,_⟩ | ⟨one,_⟩
  · rw [none] at member
    cases member
  · rw [many] at member
    simpa [layer] using sender_multicast member
  · rw [one] at member
    rw [List.mem_singleton.mp member]
    rfl

theorem sender_of_core (layer : sw.layer = 1) (top : sw.topLevelForJob.get p.jobId = true)
    (member : hop ∈ (sw.receivePacket cfg p).sent) : hop.sender = .core := by
  rcases sent_cases cfg sw p with none | ⟨many,_⟩ | ⟨_,_,inner⟩
  · rw [none] at member
    cases member
  · rw [many] at member
    simpa [layer] using sender_multicast member
  · simp [top] at inner

end Switch

theorem Worker.sender_sent {cfg : Config} {objs : Objects} {w : Worker} {p : Packet}
    (member : hop ∈ (w.receivePacket cfg objs p).sent) : hop.sender = .worker w.id := by
  simp only [Worker.receivePacket] at member
  split at member
  · cases member
  · split at member
    · cases member
    · split at member
      · cases member
      · rw [List.mem_singleton.mp member]
        rfl

def Cabling.queueOf (c : Cabling) (hop : Hop) : Option Nat :=
  (c.route hop.sender hop.dest).map Route.queue

def Cabling.across (c : Cabling) (i : Nat) (bag : List Flight) : List Flight :=
  bag.filter fun fl => c.queueOf fl.hop = some i

/-- What a fabric must satisfy for its packets to have a place in the network. -/
structure Within (c : Cabling) (topo : HierarchicalTopology) (limit : Nat) (f : Fabric) : Prop where
  built : HierarchicalTopology.Built topo f.net
  top : ∀ fl ∈ f.inflight, fl.hop.dest = .core →
    f.net.core.topLevelForJob.get fl.hop.packet.jobId = true
  routed : ∀ fl ∈ f.inflight, ∃ r, c.route fl.hop.sender fl.hop.dest = some r ∧
    r.last = fl.hop.dest
  few : ∀ i, (c.across i f.inflight).length ≤ limit

/-- The queues hold the packets of the bag. No packet was dropped, and none made a queue longer than
`cap` bytes. -/
structure Carries (c : Cabling) (cap : Nat) (bag : List Flight) (q : QueueNetwork) : Prop where
  content : ∀ i, ((c.across i bag).map Flight.hop).Perm (q.queues i).enqueued
  counted : ∀ i, (q.queues i).queuesize = ((q.queues i).enqueued.map c.spec.size).sum
  taken : ∀ i, ∀ o ∈ (q.queues i).offers,
    o.taken = true ∧ (o.held.map c.spec.size).sum + c.spec.size o.packet ≤ cap

namespace Carries
variable {c : Cabling} {cap : Nat} {bag : List Flight} {q : QueueNetwork} {limit bytes : Nat}

theorem congr (carries : Carries c cap bag q) (queues : q'.queues = q.queues) :
    Carries c cap bag q' :=
  ⟨by rw [queues]; exact carries.content,by rw [queues]; exact carries.counted,
    by rw [queues]; exact carries.taken⟩

theorem across_append (i : Nat) (bag new : List Flight) :
    c.across i (bag ++ new) = c.across i bag ++ c.across i new := List.filter_append ..

/-- A bound on the packets of a queue is one on its content. -/
theorem content_le (carries : Carries c cap bag q) (size : ∀ hop, c.spec.size hop ≤ bytes) (i : Nat) :
    ((q.queues i).enqueued.map c.spec.size).sum ≤ (c.across i bag).length * bytes := by
  have each := List.sum_le_card_nsmul ((q.queues i).enqueued.map c.spec.size) bytes fun n member => by
    obtain ⟨hop,_,rfl⟩ := List.mem_map.mp member
    exact size hop
  have length := (carries.content i).length_eq
  rw [List.length_map] at length
  rwa [List.length_map,← length,Nat.nsmul_eq_mul] at each

variable (size : ∀ hop, c.spec.size hop ≤ bytes) (room : limit * bytes ≤ c.spec.maxsize)
include size room

/-- A packet for which there is a place enters the queue of its link. -/
theorem send (carries : Carries c (limit * bytes) bag q) (fl : Flight)
    (routed : ∃ r, c.route fl.hop.sender fl.hop.dest = some r ∧ r.last = fl.hop.dest)
    (few : ∀ i, (c.across i (bag ++ [fl])).length ≤ limit) :
    ∃ q', q.sendOnSimple c fl.hop.sender fl.hop = some q' ∧
      Carries c (limit * bytes) (bag ++ [fl]) q' ∧ q'.net = q.net ∧ q'.objs = q.objs := by
  obtain ⟨r,found,last⟩ := routed
  have crosses : c.queueOf fl.hop = some r.queue := by rw [Cabling.queueOf,found]; rfl
  have here : c.across r.queue (bag ++ [fl]) = c.across r.queue bag ++ [fl] := by
    simp [Cabling.across,crosses]
  have away (i : Nat) (other : i ≠ r.queue) : c.across i (bag ++ [fl]) = c.across i bag := by
    simp [Cabling.across,crosses,other.symm]
  have roomy : (((q.queues r.queue).enqueued.map c.spec.size).sum + c.spec.size fl.hop) ≤
      limit * bytes := by
    have held := carries.content_le size r.queue
    have bound := few r.queue
    have one := size fl.hop
    rw [here,List.length_append,List.length_singleton] at bound
    have total := Nat.mul_le_mul_right bytes bound
    rw [Nat.succ_mul] at total
    omega
  have fits : ¬c.spec.maxsize < (q.queues r.queue).queuesize + c.spec.size fl.hop := by
    have counted := carries.counted r.queue
    omega
  have accepted : ((q.queues r.queue).receivePacket c.spec q.events.now fl.hop).1 =
      { q.queues r.queue with
        enqueued := (q.queues r.queue).enqueued ++ [fl.hop]
        queuesize := (q.queues r.queue).queuesize + c.spec.size fl.hop
        offers := (q.queues r.queue).offers ++
          [⟨q.events.now,(q.queues r.queue).enqueued,fl.hop,true⟩] } := by
    simp only [SimpleQueue.receivePacket,if_neg fits]
    split <;> rfl
  have hop : (⟨r.last,fl.hop.packet⟩ : Hop) = fl.hop := by rw [last]
  have sent : q.sendOnSimple c fl.hop.sender fl.hop = some (q.receivePacket c r.queue fl.hop) := by
    simp only [QueueNetwork.sendOnSimple,found,Option.map_some,hop]
  refine ⟨_,sent,?_,rfl,rfl⟩
  have queues (i : Nat) : (q.receivePacket c r.queue fl.hop).queues i =
      if i = r.queue then ((q.queues r.queue).receivePacket c.spec q.events.now fl.hop).1
      else q.queues i := by
    split
    · rename_i same
      rw [same]
      exact QueueNetwork.receivePacket_queue
    · rename_i other
      exact (QueueNetwork.receivePacket_other other).1
  constructor
  all_goals
    intro i
    rw [queues i]
    rcases eq_or_ne i r.queue with rfl | other
  · rw [if_pos rfl,accepted,here,List.map_append]
    exact (carries.content _).append_right _
  · rw [if_neg other,away i other]
    exact carries.content i
  · simp [accepted,carries.counted]
  · rw [if_neg other]
    exact carries.counted i
  · rw [if_pos rfl,accepted]
    intro o member
    rcases List.mem_append.mp member with old | new
    · exact carries.taken _ o old
    · rw [List.mem_singleton.mp new]
      exact ⟨rfl,roomy⟩
  · rw [if_neg other]
    exact carries.taken i

theorem sendAll (new : List Flight) (carries : Carries c (limit * bytes) bag q)
    (routed : ∀ fl ∈ new, ∃ r, c.route fl.hop.sender fl.hop.dest = some r ∧ r.last = fl.hop.dest)
    (few : ∀ i, (c.across i (bag ++ new)).length ≤ limit) :
    ∃ q', new.foldlM (fun q fl => QueueNetwork.sendOnSimple c fl.hop.sender q fl.hop) q = some q' ∧
      Carries c (limit * bytes) (bag ++ new) q' ∧ q'.net = q.net ∧ q'.objs = q.objs := by
  induction new generalizing bag q with
  | nil => exact ⟨q,rfl,by rwa [List.append_nil],rfl,rfl⟩
  | cons fl rest ih =>
    rw [List.append_cons] at few
    have first (i : Nat) : (c.across i (bag ++ [fl])).length ≤ limit := by
      have all := few i
      rw [across_append,List.length_append] at all
      omega
    obtain ⟨q₁,sent,carries₁,net₁,objs₁⟩ :=
      carries.send size room fl (routed fl List.mem_cons_self) first
    obtain ⟨q₂,others,carries₂,net₂,objs₂⟩ :=
      ih carries₁ (fun g member => routed g (List.mem_cons_of_mem _ member)) few
    refine ⟨q₂,?_,by rwa [List.append_cons],net₂.trans net₁,objs₂.trans objs₁⟩
    rw [List.foldlM_cons,sent]
    exact others

omit size room in
theorem foldlM_sender (turn : Nat) {src : Node} {hops : List Hop}
    (senders : ∀ hop ∈ hops, hop.sender = src) :
    (Fabric.fly turn hops).foldlM
        (fun q fl => QueueNetwork.sendOnSimple c fl.hop.sender q fl.hop) q =
      hops.foldlM (QueueNetwork.sendOnSimple c src) q := by
  induction hops generalizing q with
  | nil => rfl
  | cons hop rest ih =>
    have first := senders hop List.mem_cons_self
    have others (q : QueueNetwork) := ih (q := q) fun hop member =>
      senders hop (List.mem_cons_of_mem _ member)
    simp only [Fabric.fly,List.map_cons,List.foldlM_cons,first] at others ⊢
    simp only [others]

/-- The object at the end of a hop sends on what it sends in the fabric. -/
theorem passOn {f : Fabric} {turn : Nat} {src : Node} {hops : List Hop}
    (carries : Carries c (limit * bytes) bag q) (senders : ∀ hop ∈ hops, hop.sender = src)
    (inflight : f.inflight = bag ++ Fabric.fly turn hops) (within : Within c topo limit f) :
    ∃ q', hops.foldlM (QueueNetwork.sendOnSimple c src) q = some q' ∧
      Carries c (limit * bytes) f.inflight q' ∧ q'.net = q.net ∧ q'.objs = q.objs := by
  obtain ⟨q',sent,carried,net,objs⟩ := carries.sendAll size room (Fabric.fly turn hops)
    (fun fl member => within.routed fl (inflight ▸ List.mem_append_right _ member))
    (inflight ▸ within.few)
  exact ⟨q',foldlM_sender turn senders ▸ sent,inflight ▸ carried,net,objs⟩

/-- The packet that has left its queue is handled as in the fabric. -/
theorem deliver {f : Fabric} {fl : Flight} (member : fl ∈ f.inflight)
    (carries : Carries c (limit * bytes) (f.inflight.erase fl) q) (net : q.net = f.net) (objs : q.objs = f.objs)
    (within : Within c topo limit f) (next : Within c topo limit (f.deliver c.cfg fl)) :
    ∃ q', q.deliver c fl.hop = some q' ∧
      Carries c (limit * bytes) (f.deliver c.cfg fl).inflight q' ∧
      q'.net = (f.deliver c.cfg fl).net ∧ q'.objs = (f.deliver c.cfg fl).objs := by
  have built := within.built
  have top := within.top fl member
  obtain ⟨events,queues,_,_,frontOfEmpty⟩ := q
  dsimp only at net objs
  subst net objs
  unfold QueueNetwork.deliver
  unfold Fabric.deliver at next ⊢
  split
  · rename_i t dest
    simp only [dest] at next ⊢
    have inflight : (f.atSwitch c.cfg fl).inflight = f.inflight.erase fl ++
        Fabric.fly fl.turn ((f.net.tor t).receivePacket c.cfg fl.hop.packet).sent := by
      simp only [Fabric.atSwitch,dest]
      rfl
    have onward : Carries c (limit * bytes) (f.inflight.erase fl) ⟨events,queues,
        f.net.setTor t ((f.net.tor t).receivePacket c.cfg fl.hop.packet).switch,f.objs,
        frontOfEmpty⟩ := carries.congr rfl
    obtain ⟨q',sent,carried,after,same⟩ := onward.passOn size room
      (fun hop new => (Switch.sender_of_tor (built.torLayer t) new).trans
        (congrArg Node.tor (built.torId t))) inflight next
    refine ⟨q',sent,carried,after.trans ?_,same⟩
    simp only [Fabric.atSwitch,dest]
    rfl
  · rename_i dest
    simp only [dest] at next ⊢
    have inflight : (f.atSwitch c.cfg fl).inflight = f.inflight.erase fl ++
        Fabric.fly fl.turn (f.net.core.receivePacket c.cfg fl.hop.packet).sent := by
      simp only [Fabric.atSwitch,dest]
      rfl
    have onward : Carries c (limit * bytes) (f.inflight.erase fl) ⟨events,queues,
        { f.net with core := (f.net.core.receivePacket c.cfg fl.hop.packet).switch },f.objs,
        frontOfEmpty⟩ := carries.congr rfl
    obtain ⟨q',sent,carried,after,same⟩ := onward.passOn size room
      (fun hop new => Switch.sender_of_core built.coreLayer (top dest) new) inflight next
    refine ⟨q',sent,carried,after.trans ?_,same⟩
    simp only [Fabric.atSwitch,dest]
    rfl
  · rename_i w dest
    simp only [dest] at next ⊢
    have onward : Carries c (limit * bytes) (f.inflight.erase fl) ⟨events,queues,
        f.net.setWorker w ((f.net.worker w).receivePacket c.cfg f.objs fl.hop.packet).worker,
        f.objs,frontOfEmpty⟩ := carries.congr rfl
    obtain ⟨q',sent,carried,after,same⟩ := onward.passOn size room
      (fun hop new => (Worker.sender_sent new).trans (congrArg Node.worker (built.workerId w)))
      rfl next
    exact ⟨q',sent,carried,after,same⟩

omit size room in
theorem front (carries : Carries c cap bag q) (shape : (q.queues i).enqueued = hop :: rest) :
    ∃ fl, bag.find? (fun fl => fl.hop = hop) = some fl ∧ fl ∈ bag ∧ fl.hop = hop ∧
      c.queueOf fl.hop = some i := by
  have inside : hop ∈ (c.across i bag).map Flight.hop :=
    (carries.content i).mem_iff.mpr (by rw [shape]; exact List.mem_cons_self)
  obtain ⟨g,also,rfl⟩ := List.mem_map.mp inside
  obtain ⟨member,crosses⟩ := List.mem_filter.mp also
  have found : (bag.find? fun fl => fl.hop = g.hop).isSome :=
    List.find?_isSome.mpr ⟨g,member,by simp⟩
  obtain ⟨fl,first⟩ := Option.isSome_iff_exists.mp found
  have same : fl.hop = g.hop := by simpa using List.find?_some first
  exact ⟨fl,first,List.mem_of_find?_eq_some first,same,by rw [same]; simpa using crosses⟩

omit size room in
/-- The packet in front leaves the queue and the bag. -/
theorem pop (carries : Carries c cap bag q) (shape : (q.queues i).enqueued = fl.hop :: rest)
    (member : fl ∈ bag) (crosses : c.queueOf fl.hop = some i) (events : EventList Nat) :
    Carries c cap (bag.erase fl) { q with
      events := events
      queues := Function.update q.queues i
        ((q.queues i).pop c.spec events.now fl.hop rest) } := by
  constructor
  all_goals
    intro k
    dsimp only
    rcases eq_or_ne k i with rfl | other
  · rw [Function.update_self]
    have inside : fl ∈ c.across k bag := List.mem_filter.mpr ⟨member,by simpa using crosses⟩
    have split : (fl.hop :: ((c.across k bag).erase fl).map Flight.hop).Perm (fl.hop :: rest) :=
      ((List.perm_cons_erase inside).map Flight.hop).symm.trans (shape ▸ carries.content k)
    have erased : c.across k (bag.erase fl) = (c.across k bag).erase fl := List.erase_filter.symm
    rw [erased]
    exact split.cons_inv
  · rw [Function.update_of_ne other]
    have apart : fl ∉ c.across k bag := by
      intro inside
      have also := (List.mem_filter.mp inside).2
      rw [crosses] at also
      simp [other.symm] at also
    have erased : c.across k (bag.erase fl) = c.across k bag :=
      List.erase_filter.symm.trans (List.erase_of_not_mem apart)
    rw [erased]
    exact carries.content k
  · rw [Function.update_self]
    have counted := carries.counted k
    rw [shape,List.map_cons,List.sum_cons] at counted
    simp only [SimpleQueue.pop,counted]
    omega
  · rw [Function.update_of_ne other]
    exact carries.counted k
  · rw [Function.update_self]
    exact carries.taken k
  · rw [Function.update_of_ne other]
    exact carries.taken k

end Carries

/-- A program with its packets in a fabric: its steps, and which of them is the delivery of a
packet. -/
structure Protocol (L S : Type) where
  step : L → S → Option S
  fabric : S → Fabric
  deliver : Flight → L
  delivered : L → Option Flight

/-- A delivery does to the fabric what the network does, and any other step only sends packets. -/
structure Protocol.Lawful (m : Protocol L S) (cfg : Config) : Prop where
  delivers : ∀ fl s t, m.step (m.deliver fl) s = some t →
    m.fabric t = (m.fabric s).deliver cfg fl
  sends : ∀ l s t, m.delivered l = none → m.step l s = some t →
    ∃ new, (m.fabric t).inflight = (m.fabric s).inflight ++ new

/-- A program and the queues that its packets are in. -/
structure Carried (S : Type) where
  program : S
  network : QueueNetwork

inductive Carried.Label (L : Type) where
  | tick (d : Nat)
  | act (l : L)
  | doNextEvent (queue : Nat)

namespace Protocol
variable (m : Protocol L S) (c : Cabling)

def act (l : L) (s : Carried S) : Option (Carried S) :=
  if m.delivered l = none then
    (m.step l s.program).bind fun program =>
      let new := (m.fabric program).inflight.drop (m.fabric s.program).inflight.length
      (new.foldlM (fun q fl => QueueNetwork.sendOnSimple c fl.hop.sender q fl.hop)
        { s.network with net := (m.fabric program).net, objs := (m.fabric program).objs }).map
        fun network => ⟨program,network⟩
  else none

def doNextEvent (queue : Nat) (s : Carried S) : Option (Carried S) :=
  (QueueNetwork.step c (.doNextEvent queue) s.network).bind fun network =>
    match (s.network.queues queue).enqueued with
    | [] => some { s with network := network }
    | front :: _ =>
      ((m.fabric s.program).inflight.find? fun fl => fl.hop = front).bind fun fl =>
        (m.step (m.deliver fl) s.program).map fun program => ⟨program,network⟩

def carry : Carried.Label L → Carried S → Option (Carried S)
  | .tick d,s => (QueueNetwork.step c (.tick d) s.network).map fun network =>
    { s with network := network }
  | .act l,s => m.act c l s
  | .doNextEvent queue,s => m.doNextEvent c queue s

def initial (start : S) : Carried S where
  program := start
  network := { net := (m.fabric start).net, objs := (m.fabric start).objs }

/-- A condition on the steps of the program. -/
def among (ok : L → S → Prop) : Carried.Label L → Carried S → Prop
  | .act l,s => ok l s.program
  | .tick _,_ | .doNextEvent _,_ => True

instance (ok : L → S → Prop) [∀ l s, Decidable (ok l s)] (label : Carried.Label L) (s : Carried S) :
    Decidable (among ok label s) :=
  match label with
  | .act l => inferInstanceAs (Decidable (ok l _))
  | .tick _ | .doNextEvent _ => isTrue trivial

/-- The queues are in line with the program: the same objects, and the same packets under way. -/
structure Mirrors (cap : Nat) (s : Carried S) : Prop where
  net : s.network.net = (m.fabric s.program).net
  objs : s.network.objs = (m.fabric s.program).objs
  carries : Carries c cap (m.fabric s.program).inflight s.network
  sound : QueueNetwork.Sound c s.network

section carry
variable {m} {c} {topo : HierarchicalTopology} {limit bytes : Nat}
  (lawful : m.Lawful c.cfg) (size : ∀ hop, c.spec.size hop ≤ bytes) (small : bytes < 2^16)
  (room : limit * bytes ≤ c.spec.maxsize)
include size small

/-- An event of a queue is one of the network, in which the program handles the packet in front. -/
theorem doNextEvent_spec {s t : Carried S} (built : QueueNetwork.Built c.route)
    (mirrors : m.Mirrors c cap s) (taken : m.doNextEvent c queue s = some t) :
    ∃ fl rest, (s.network.queues queue).enqueued = fl.hop :: rest ∧
      fl ∈ (m.fabric s.program).inflight ∧ c.queueOf fl.hop = some queue ∧
      m.step (m.deliver fl) s.program = some t.program ∧
      QueueNetwork.step c (.doNextEvent queue) s.network = some t.network := by
  obtain ⟨network,popped,taken⟩ := Option.bind_eq_some_iff.mp taken
  have sound := QueueNetwork.step_sound built.oneLinkEach (fun hop => (size hop).trans_lt small) _ _ _
    mirrors.sound popped
  cases shape : (s.network.queues queue).enqueued with
  | nil =>
    unfold QueueNetwork.step at popped
    rw [if_neg (Bool.eq_false_iff.mp mirrors.sound.front)] at popped
    obtain ⟨events,_,popped⟩ := Option.bind_eq_some_iff.mp popped
    simp only [QueueNetwork.doNextEvent,shape] at popped
    cases popped
    cases sound.front
  | cons front rest =>
    rw [shape] at taken
    obtain ⟨fl,found,taken⟩ := Option.bind_eq_some_iff.mp taken
    obtain ⟨program,stepped,rfl⟩ := Option.map_eq_some_iff.mp taken
    obtain ⟨g,first,member,rfl,crosses⟩ := mirrors.carries.front shape
    cases found.symm.trans first
    exact ⟨fl,rest,rfl,member,crosses,stepped,popped⟩

include lawful room

theorem act_mirrors {s t : Carried S} (mirrors : m.Mirrors c (limit * bytes) s)
    (within : ∀ p, m.step l s.program = some p → Within c topo limit (m.fabric p))
    (taken : m.act c l s = some t) :
    m.step l s.program = some t.program ∧ m.Mirrors c (limit * bytes) t := by
  unfold act at taken
  split at taken
  case isFalse => cases taken
  rename_i other
  obtain ⟨program,stepped,taken⟩ := Option.bind_eq_some_iff.mp taken
  obtain ⟨network,sent,rfl⟩ := Option.map_eq_some_iff.mp taken
  obtain ⟨new,inflight⟩ := lawful.sends l s.program program other stepped
  rw [inflight,List.drop_left] at sent
  have within := within program stepped
  have start : Carries c (limit * bytes) (m.fabric s.program).inflight { s.network with
      net := (m.fabric program).net, objs := (m.fabric program).objs } := mirrors.carries.congr rfl
  obtain ⟨q,same,carries,net,objs⟩ := start.sendAll size room new
    (fun fl member => within.routed fl (inflight ▸ List.mem_append_right _ member))
    (inflight ▸ within.few)
  cases sent.symm.trans same
  refine ⟨stepped,net,objs,inflight ▸ carries,?_⟩
  exact Runs.foldlM_invariant
    (fun _ _ _ before sent => QueueNetwork.sendOnSimple_sound
      (fun hop => (size hop).trans_lt small) before sent) sent
    ⟨mirrors.sound.front,mirrors.sound.serves,mirrors.sound.onRoutes⟩

theorem doNextEvent_mirrors {s t : Carried S} (built : QueueNetwork.Built c.route)
    (mirrors : m.Mirrors c (limit * bytes) s) (within : Within c topo limit (m.fabric s.program))
    (next : ∀ fl p, m.step (m.deliver fl) s.program = some p → Within c topo limit (m.fabric p))
    (taken : m.doNextEvent c queue s = some t) :
    (∃ fl, m.step (m.deliver fl) s.program = some t.program) ∧
      m.Mirrors c (limit * bytes) t := by
  obtain ⟨fl,rest,shape,member,crosses,stepped,popped⟩ :=
    doNextEvent_spec size small built mirrors taken
  have sound := QueueNetwork.step_sound built.oneLinkEach (fun hop => (size hop).trans_lt small) _ _ _
    mirrors.sound popped
  unfold QueueNetwork.step at popped
  rw [if_neg (Bool.eq_false_iff.mp mirrors.sound.front)] at popped
  obtain ⟨events,_,popped⟩ := Option.bind_eq_some_iff.mp popped
  simp only [QueueNetwork.doNextEvent,shape] at popped
  obtain ⟨passed,delivered,same⟩ := Option.map_eq_some_iff.mp popped
  have fabric := lawful.delivers fl s.program t.program stepped
  have next := next fl t.program stepped
  rw [fabric] at next
  obtain ⟨q,also,carries,net,objs⟩ := (mirrors.carries.pop shape member crosses events).deliver
    size room member mirrors.net mirrors.objs within next
  cases delivered.symm.trans also
  have queues : (passed.rearm c queue).queues = passed.queues ∧
      (passed.rearm c queue).net = passed.net ∧ (passed.rearm c queue).objs = passed.objs := by
    unfold QueueNetwork.rearm
    split <;> exact ⟨rfl,rfl,rfl⟩
  rw [same] at queues
  refine ⟨⟨fl,stepped⟩,?_⟩
  constructor
  case net => exact queues.2.1.trans (net.trans (congrArg Fabric.net fabric).symm)
  case objs => exact queues.2.2.trans (objs.trans (congrArg Fabric.objs fabric).symm)
  case carries => exact fabric ▸ carries.congr queues.1
  case sound => exact sound

/-- Queues with room for the packets that can be under way refine the bag: a run over them is a run
of the program, and no packet is dropped. -/
theorem mirrors_of_run (built : QueueNetwork.Built c.route) {ok : L → S → Prop} {s t : Carried S}
    (deliverable : ∀ fl p, ok (m.deliver fl) p)
    (within : ∀ p, Runs.Run m.step ok s.program p → Within c topo limit (m.fabric p))
    (mirrors : m.Mirrors c (limit * bytes) s) (run : Runs.Run (m.carry c) (among ok) s t) :
    Runs.Run m.step ok s.program t.program ∧ m.Mirrors c (limit * bytes) t := by
  have preserved (label : Carried.Label L) (u t : Carried S)
      (before : Runs.Run m.step ok s.program u.program ∧ m.Mirrors c (limit * bytes) u)
      (allowed : among ok label u) (taken : m.carry c label u = some t) :
      Runs.Run m.step ok s.program t.program ∧ m.Mirrors c (limit * bytes) t := by
    obtain ⟨reached,mirrors⟩ := before
    cases label with
    | tick d =>
      obtain ⟨network,ticked,rfl⟩ := Option.map_eq_some_iff.mp taken
      have sound := QueueNetwork.step_sound built.oneLinkEach
        (fun hop => (size hop).trans_lt small) _ _ _ mirrors.sound ticked
      unfold QueueNetwork.step at ticked
      rw [if_neg (Bool.eq_false_iff.mp mirrors.sound.front)] at ticked
      obtain ⟨events,_,rfl⟩ := Option.map_eq_some_iff.mp ticked
      exact ⟨reached,mirrors.net,mirrors.objs,mirrors.carries.congr rfl,sound⟩
    | act l =>
      obtain ⟨stepped,next⟩ := act_mirrors lawful size small room mirrors
        (fun p stepped => within p (reached.snoc allowed stepped)) taken
      exact ⟨reached.snoc allowed stepped,next⟩
    | doNextEvent queue =>
      obtain ⟨⟨fl,stepped⟩,next⟩ := doNextEvent_mirrors lawful size small room built mirrors
        (within _ reached)
        (fun fl p stepped => within p (reached.snoc (deliverable fl _) stepped)) taken
      exact ⟨reached.snoc (deliverable fl _) stepped,next⟩
  have kept := run.invariant preserved ⟨.nil,mirrors⟩
  exact kept

end carry

theorem initial_mirrors {m : Protocol L S} {c : Cabling} {start : S} (cap : Nat)
    (empty : (m.fabric start).inflight = []) : m.Mirrors c cap (m.initial start) := by
  refine ⟨rfl,rfl,⟨fun i => ?_,fun _ => rfl,fun _ _ member => by cases member⟩,
    QueueNetwork.initial_sound c _ _⟩
  simp [initial,empty,Cabling.across]

end Protocol
end CloudSim
