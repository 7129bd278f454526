import CloudSim.Delays
import CloudSim.Depth
import CloudSim.Descent
import Mathlib.Data.Finset.Max

/-! When the packets of a program have crossed the queues. Every packet is one hop further than the
one that it answers and leaves its queue in bounded time, so after so many hops none is left. -/
namespace CloudSim

theorem EventList.exists_next [DecidableEq S] {ev : EventList S} (some : ev.pending ≠ [])
    (future : ∀ e ∈ ev.pending, ev.now ≤ e.1) :
    ∃ d ev' src, ev.tick d = .some ev' ∧ (ev'.now,src) ∈ ev'.pending := by
  obtain ⟨e,member,first⟩ := ev.pending.toFinset.exists_min_image Prod.fst
    (List.toFinset_nonempty_iff _ |>.mpr some)
  have time : ev.now + (e.1 - ev.now) = e.1 :=
    Nat.add_sub_of_le (future e (List.mem_toFinset.mp member))
  refine ⟨e.1 - ev.now,{ ev with now := ev.now + (e.1 - ev.now) },e.2,if_pos fun e' inside => ?_,?_⟩
  · rw [time]
    exact first e' (List.mem_toFinset.mpr inside)
  · dsimp only
    rw [time]
    exact List.mem_toFinset.mp member

namespace SimpleQueue
variable {spec : QueueSpec P} {now : Nat} {due : List Nat} {q : SimpleQueue P}
  {served waiting : List (Nat × P)}

theorem kept_of_enqueued (served' : Served spec now due q served waiting) (member : p ∈ q.enqueued) :
    ∃ o ∈ q.kept.drop q.left.length, o.packet = p := by
  have count : q.left.length = served.length := by
    simpa using congrArg List.length served'.packets
  have listed : q.kept.map (fun o => (o.time,o.packet)) = served ++ waiting := served'.accepted
  have rest := congrArg (fun es => (es.drop served.length).map Prod.snd) listed
  rw [List.drop_left,← served'.enqueued,← List.map_drop,List.map_map,← count] at rest
  exact List.mem_map.mp (rest ▸ member)

end SimpleQueue

namespace QueueNetwork
variable {c : Cabling} {s t : QueueNetwork} {i queue : Nat} {hop : Hop} {o : Offer Hop}

theorem offers_receivePacket (member : o ∈ ((s.receivePacket c queue hop).queues i).offers) :
    o ∈ (s.queues i).offers ∨ o.time = s.events.now ∧ o.packet = hop := by
  rcases eq_or_ne i queue with rfl | other
  · rw [receivePacket_queue] at member
    unfold SimpleQueue.receivePacket at member
    split at member
    · rcases List.mem_append.mp member with old | new
      · exact Or.inl old
      · exact Or.inr (List.mem_singleton.mp new ▸ ⟨rfl,rfl⟩)
    · dsimp only at member
      split at member
      all_goals
        rcases List.mem_append.mp member with old | new
        · exact Or.inl old
        · exact Or.inr (List.mem_singleton.mp new ▸ ⟨rfl,rfl⟩)
  · rw [(receivePacket_other other).1] at member
    exact Or.inl member

/-- An arrival of a packet that `src` sends now. -/
def Arrives (c : Cabling) (now : Nat) (src : Node) (hops : List Hop) (o : Offer Hop) : Prop :=
  o.time = now ∧ ∃ hop ∈ hops, ∃ r, c.route src hop.dest = some r ∧ o.packet = ⟨r.last,hop.packet⟩

theorem offers_sendAll {src : Node} {hops : List Hop}
    (sent : hops.foldlM (sendOnSimple c src) s = some t)
    (member : o ∈ (t.queues i).offers) :
    o ∈ (s.queues i).offers ∨ Arrives c s.events.now src hops o := by
  induction hops generalizing s with
  | nil =>
    cases sent
    exact Or.inl member
  | cons hop rest ih =>
    rw [List.foldlM_cons] at sent
    obtain ⟨u,first,others⟩ := Option.bind_eq_some_iff.mp sent
    obtain ⟨r,found,rfl⟩ := Option.map_eq_some_iff.mp first
    rcases ih others with old | ⟨time,new,inside,also⟩
    · rcases offers_receivePacket old with older | ⟨time,packet⟩
      · exact Or.inl older
      · exact Or.inr ⟨time,hop,List.mem_cons_self,r,found,packet⟩
    · exact Or.inr ⟨time.trans receivePacket_now,new,List.mem_cons_of_mem _ inside,also⟩

/-- What arrives anywhere while a packet is handled comes from the object that handles it. -/
theorem offers_deliver (delivered : s.deliver c hop = some t) (member : o ∈ (t.queues i).offers) :
    o ∈ (s.queues i).offers ∨
      Arrives c s.events.now hop.dest (s.net.sends c.cfg s.objs hop) o := by
  unfold deliver at delivered
  unfold Network.sends
  split at delivered
  all_goals
    rename_i dest
    simp only [dest]
    have arrived := offers_sendAll delivered member
    exact arrived

theorem offers_doNextEvent (shape : (s.queues queue).enqueued = front :: rest)
    (sound : s.frontOfEmpty = false) (taken : step c (.doNextEvent queue) s = some t)
    (member : o ∈ (t.queues i).offers) :
    o ∈ (s.queues i).offers ∨
      Arrives c s.events.now front.dest (s.net.sends c.cfg s.objs front) o := by
  unfold step at taken
  rw [if_neg (Bool.eq_false_iff.mp sound)] at taken
  obtain ⟨events,fired,taken⟩ := Option.bind_eq_some_iff.mp taken
  have time := (EventList.fire_spec fired).1
  unfold doNextEvent at taken
  simp only [shape] at taken
  obtain ⟨u,delivered,rfl⟩ := Option.map_eq_some_iff.mp taken
  have queues : (u.rearm c queue).queues = u.queues := by
    unfold rearm
    split <;> rfl
  rw [queues] at member
  rcases offers_deliver delivered member with old | new
  · refine Or.inl ?_
    dsimp only at old
    rcases eq_or_ne i queue with rfl | other
    · rwa [Function.update_self] at old
    · rwa [Function.update_of_ne other] at old
  · rw [← time]
    exact Or.inr new

theorem now_sendAll {src : Node} {hops : List Hop}
    (sent : hops.foldlM (sendOnSimple c src) s = some t) : t.events.now = s.events.now := by
  have same (hop : Hop) (u v : QueueNetwork) (before : u.events.now = s.events.now)
      (sent : u.sendOnSimple c src hop = some v) : v.events.now = s.events.now := by
    obtain ⟨r,_,rfl⟩ := Option.map_eq_some_iff.mp sent
    exact receivePacket_now.trans before
  have kept := Runs.foldlM_invariant same sent rfl
  exact kept

theorem now_doNextEvent (taken : step c (.doNextEvent queue) s = some t) :
    t.events.now = s.events.now := by
  unfold step at taken
  split at taken
  · cases taken
  obtain ⟨events,fired,taken⟩ := Option.bind_eq_some_iff.mp taken
  have time := (EventList.fire_spec fired).1
  unfold doNextEvent at taken
  dsimp only at taken
  split at taken
  · cases taken
    exact time
  · obtain ⟨u,delivered,rfl⟩ := Option.map_eq_some_iff.mp taken
    have same : (u.rearm c queue).events.now = u.events.now := by
      unfold rearm
      split <;> rfl
    rw [same,← time]
    unfold deliver at delivered
    split at delivered
    all_goals
      have now := now_sendAll delivered
      exact now

/-- Something in a queue left or is to leave within the time that `cap` bytes take. -/
theorem Timely.soon (timely : Timely c s) (sound : Sound c s)
    (taken : ∀ o ∈ (s.queues i).offers, o.taken = true ∧
      (o.held.map c.spec.size).sum + c.spec.size o.packet ≤ cap)
    (member : hop ∈ (s.queues i).enqueued) :
    ∃ o ∈ (s.queues i).offers, o.packet = hop ∧ s.events.now ≤ o.time + cap * c.spec.psPerByte := by
  obtain ⟨served,waiting,served'⟩ := sound.serves i
  obtain ⟨o,rest,packet⟩ := SimpleQueue.kept_of_enqueued served' member
  have inside : o ∈ (s.queues i).offers := List.mem_of_mem_filter (List.mem_of_mem_drop rest)
  have late := (((timely i).prompt served').waiting o rest).2
  have few : c.spec.backlog o ≤ cap * c.spec.psPerByte := by
    refine Nat.mul_le_mul_right _ ?_
    simpa using (taken o inside).2
  exact ⟨o,inside,packet,late.trans (Nat.add_le_add_left few _)⟩

end QueueNetwork

/-- What the object at the end of a hop sends comes from there. -/
theorem Within.sender_sends {c : Cabling} {topo : HierarchicalTopology} {limit : Nat} {f : Fabric}
    (within : Within c topo limit f) (member : fl ∈ f.inflight)
    (new : hop ∈ f.net.sends c.cfg f.objs fl.hop) : hop.sender = fl.hop.dest := by
  unfold Network.sends at new
  split at new
  · rename_i t dest
    rw [dest,← within.built.torId t]
    exact Switch.sender_of_tor (within.built.torLayer t) new
  · rename_i dest
    rw [dest]
    exact Switch.sender_of_core within.built.coreLayer (within.top fl member dest) new
  · rename_i w dest
    rw [dest,← within.built.workerId w]
    exact Worker.sender_sent new

namespace Protocol

theorem network_of_run {m : Protocol L S} {c : Cabling} {ok : Carried.Label L → Carried S → Prop}
    {s t : Carried S} (built : QueueNetwork.Built c.route)
    (small : ∀ hop, c.spec.size hop < 2^16) (sound : QueueNetwork.Sound c s.network)
    (run : Runs.Run (m.carry c) ok s t) :
    Runs.Run (QueueNetwork.step c) Runs.anyStep s.network t.network := by
  have step (label : QueueLabel) (q q' : QueueNetwork)
      (before : Runs.Run (QueueNetwork.step c) Runs.anyStep s.network q ∧ QueueNetwork.Sound c q)
      (taken : QueueNetwork.step c label q = some q') :
      Runs.Run (QueueNetwork.step c) Runs.anyStep s.network q' ∧ QueueNetwork.Sound c q' :=
    ⟨before.1.snoc trivial taken,
      QueueNetwork.step_sound built.oneLinkEach small label q q' before.2 taken⟩
  have preserved (label : Carried.Label L) (u v : Carried S)
      (before : Runs.Run (QueueNetwork.step c) Runs.anyStep s.network u.network ∧
        QueueNetwork.Sound c u.network) (_ : ok label u) (taken : m.carry c label u = some v) :
      Runs.Run (QueueNetwork.step c) Runs.anyStep s.network v.network ∧
        QueueNetwork.Sound c v.network := by
    cases label with
    | tick d =>
      obtain ⟨network,ticked,rfl⟩ := Option.map_eq_some_iff.mp taken
      exact step _ _ _ before ticked
    | doNextEvent queue =>
      obtain ⟨network,popped,taken⟩ := Option.bind_eq_some_iff.mp taken
      have next := step _ _ _ before popped
      split at taken
      · cases taken
        exact next
      · obtain ⟨fl,_,taken⟩ := Option.bind_eq_some_iff.mp taken
        obtain ⟨program,_,rfl⟩ := Option.map_eq_some_iff.mp taken
        exact next
    | act l =>
      have taken : m.act c l u = some v := taken
      unfold Protocol.act at taken
      split at taken
      case isFalse => cases taken
      obtain ⟨program,_,taken⟩ := Option.bind_eq_some_iff.mp taken
      obtain ⟨network,sent,rfl⟩ := Option.map_eq_some_iff.mp taken
      have changed := step (.change (m.fabric program).net (m.fabric program).objs) _ _ before
        (if_neg (Bool.eq_false_iff.mp before.2.front))
      have sends (fl : Flight) (q q' : QueueNetwork)
          (before : Runs.Run (QueueNetwork.step c) Runs.anyStep s.network q ∧
            QueueNetwork.Sound c q)
          (sent : q.sendOnSimple c fl.hop.sender fl.hop = some q') :
          Runs.Run (QueueNetwork.step c) Runs.anyStep s.network q' ∧ QueueNetwork.Sound c q' :=
        step (.sendOnSimple fl.hop.sender fl.hop) _ _ before
          ((if_neg (Bool.eq_false_iff.mp before.2.front)).trans sent)
      exact Runs.foldlM_invariant sends sent changed
  have kept := run.invariant preserved ⟨.nil,sound⟩
  exact kept.1

/-- From `start` on the program only answers packets, and what answers a packet is one hop further. -/
structure Descends (m : Protocol L S) (cfg : Config) (ok : L → S → Prop) (depth : Hop → Nat)
    (total : Nat) (start : S) : Prop where
  silent : ∀ p, Runs.Run m.step ok start p → ∀ l p', m.delivered l = none → ok l p →
    m.step l p = some p' → (m.fabric p').inflight = (m.fabric p).inflight
  ready : ∀ p, Runs.Run m.step ok start p → ∀ fl ∈ (m.fabric p).inflight,
    (m.step (m.deliver fl) p).isSome
  deeper : ∀ p, Runs.Run m.step ok start p → ∀ fl ∈ (m.fabric p).inflight,
    ∀ hop ∈ (m.fabric p).net.sends cfg (m.fabric p).objs fl.hop, depth hop = depth fl.hop + 1
  below : ∀ p, Runs.Run m.step ok start p → ∀ fl ∈ (m.fabric p).inflight, depth fl.hop < total

/-- Every packet came to its queue in the time that the hops before it take. -/
def OnTime (depth : Hop → Nat) (begun wait : Nat) (q : QueueNetwork) : Prop :=
  ∀ i, ∀ o ∈ (q.queues i).offers, o.time ≤ begun + depth o.packet * wait

/-- A state in which the packets of `start` and their answers are crossing the queues. -/
structure Draining (m : Protocol L S) (c : Cabling) (ok : L → S → Prop) (depth : Hop → Nat)
    (cap : Nat) (start s : Carried S) : Prop where
  reached : Runs.Run m.step ok start.program s.program
  mirrors : m.Mirrors c cap s
  timely : s.network.Timely c
  onTime : OnTime depth start.network.events.now (cap * c.spec.psPerByte) s.network

section drain
variable {m : Protocol L S} {c : Cabling} {topo : HierarchicalTopology} {limit bytes : Nat}
  (lawful : m.Lawful c.cfg) (size : ∀ hop, c.spec.size hop ≤ bytes) (small : bytes < 2^16)
  (room : limit * bytes ≤ c.spec.maxsize)
include lawful size small room

theorem doNextEvent_enabled {s : Carried S} (mirrors : m.Mirrors c (limit * bytes) s)
    (within : Within c topo limit (m.fabric s.program))
    (next : ∀ fl p, m.step (m.deliver fl) s.program = some p → Within c topo limit (m.fabric p))
    (ready : ∀ fl ∈ (m.fabric s.program).inflight, (m.step (m.deliver fl) s.program).isSome)
    (due : (s.network.events.now,queue) ∈ s.network.events.pending) :
    ∃ t, m.doNextEvent c queue s = some t := by
  let events : EventList Nat := { s.network.events with
    pending := s.network.events.pending.erase (s.network.events.now,queue) }
  have fired : s.network.events.fire queue = some events := if_pos due
  obtain ⟨time,timely,_,_⟩ := EventList.fire_spec fired
  obtain ⟨served,waiting,served'⟩ := mirrors.sound.serves queue
  obtain ⟨front,rest,shape,_,_⟩ := served'.pop timely fun hop => (size hop).trans_lt small
  obtain ⟨fl,found,member,rfl,crosses⟩ := mirrors.carries.front shape
  obtain ⟨program,stepped⟩ := Option.isSome_iff_exists.mp (ready fl member)
  have fabric := lawful.delivers fl s.program program stepped
  have next := next fl program stepped
  rw [fabric] at next
  obtain ⟨q,delivered,_⟩ := (mirrors.carries.pop shape member crosses events).deliver size room
    member mirrors.net mirrors.objs within next
  have popped : QueueNetwork.step c (.doNextEvent queue) s.network = some (q.rearm c queue) := by
    unfold QueueNetwork.step
    rw [if_neg (Bool.eq_false_iff.mp mirrors.sound.front)]
    refine Option.bind_eq_some_iff.mpr ⟨events,fired,?_⟩
    simp only [QueueNetwork.doNextEvent,shape]
    exact Option.map_eq_some_iff.mpr ⟨q,delivered,rfl⟩
  refine ⟨⟨program,q.rearm c queue⟩,?_⟩
  simp only [doNextEvent,popped,Option.bind_some,shape,found,stepped,Option.map_some]

variable (built : QueueNetwork.Built c.route) {ok : L → S → Prop} {depth : Hop → Nat} {total : Nat}
  {start : Carried S} (deliverable : ∀ fl p, ok (m.deliver fl) p)
  (within : ∀ p, Runs.Run m.step ok start.program p → Within c topo limit (m.fabric p))
  (descends : m.Descends c.cfg ok depth total start.program)
include built deliverable within descends

omit built deliverable in
theorem Draining.act {s t : Carried S} (draining : m.Draining c ok depth (limit * bytes) start s)
    (allowed : ok l s.program) (taken : m.act c l s = some t) :
    m.Draining c ok depth (limit * bytes) start t := by
  obtain ⟨stepped,mirrors⟩ := act_mirrors lawful size small room draining.mirrors
    (fun p stepped => within p (draining.reached.snoc allowed stepped)) taken
  unfold Protocol.act at taken
  split at taken
  case isFalse => cases taken
  rename_i other
  obtain ⟨program,also,taken⟩ := Option.bind_eq_some_iff.mp taken
  obtain ⟨network,sent,rfl⟩ := Option.map_eq_some_iff.mp taken
  rw [descends.silent _ draining.reached l program other allowed also,List.drop_length] at sent
  cases sent
  exact ⟨draining.reached.snoc allowed stepped,mirrors,draining.timely,draining.onTime⟩

theorem Draining.doNextEvent {s t : Carried S}
    (draining : m.Draining c ok depth (limit * bytes) start s)
    (taken : m.doNextEvent c queue s = some t) :
    m.Draining c ok depth (limit * bytes) start t := by
  obtain ⟨fl,rest,shape,member,_,stepped,popped⟩ :=
    doNextEvent_spec size small built draining.mirrors taken
  have reached := draining.reached.snoc (deliverable fl _) stepped
  obtain ⟨_,mirrors⟩ := doNextEvent_mirrors lawful size small room built draining.mirrors
    (within _ draining.reached)
    (fun fl p stepped => within p (draining.reached.snoc (deliverable fl _) stepped)) taken
  refine ⟨reached,mirrors,?_,fun i o arrived => ?_⟩
  · exact QueueNetwork.step_timely built.oneLinkEach (fun hop => (size hop).trans_lt small) _
      draining.mirrors.sound draining.timely popped
  rcases QueueNetwork.offers_doNextEvent shape draining.mirrors.sound.front popped arrived with
    old | ⟨time,hop,new,r,found,packet⟩
  · exact draining.onTime i o old
  rw [draining.mirrors.net,draining.mirrors.objs] at new
  -- the packet goes where its sender wanted
  have sender := (within _ draining.reached).sender_sends member new
  have here : (⟨hop,fl.turn⟩ : Flight) ∈ (m.fabric t.program).inflight := by
    rw [lawful.delivers fl _ _ stepped,Fabric.inflight_deliver_eq]
    exact List.mem_append_right _ (List.mem_map_of_mem new)
  obtain ⟨r',also,last⟩ := (within _ reached).routed _ here
  rw [sender,found] at also
  cases also
  have packet : o.packet = hop := packet.trans (by rw [last])
  have inside : fl.hop ∈ (s.network.queues queue).enqueued := by
    rw [shape]
    exact List.mem_cons_self
  obtain ⟨first,before,same,soon⟩ := draining.timely.soon draining.mirrors.sound
    (draining.mirrors.carries.taken queue) inside
  have came := draining.onTime queue first before
  rw [time,packet,descends.deeper _ draining.reached fl member hop new,Nat.succ_mul]
  rw [same] at came
  omega

theorem Draining.carry {s t : Carried S} (draining : m.Draining c ok depth (limit * bytes) start s)
    (allowed : among ok label s) (taken : m.carry c label s = some t) :
    m.Draining c ok depth (limit * bytes) start t := by
  cases label with
  | act l => exact draining.act lawful size small room within descends allowed taken
  | doNextEvent queue =>
    exact draining.doNextEvent lawful size small room built deliverable within descends taken
  | tick d =>
    have one : Runs.Run (m.carry c) (among ok) s t := .snoc .nil allowed taken
    obtain ⟨_,mirrors⟩ := mirrors_of_run lawful size small room built deliverable
      (fun p more => within p (draining.reached.trans more)) draining.mirrors one
    obtain ⟨network,ticked,rfl⟩ := Option.map_eq_some_iff.mp taken
    have timely := QueueNetwork.step_timely built.oneLinkEach
      (fun hop => (size hop).trans_lt small) _ draining.mirrors.sound draining.timely ticked
    unfold QueueNetwork.step at ticked
    rw [if_neg (Bool.eq_false_iff.mp draining.mirrors.sound.front)] at ticked
    obtain ⟨events,_,rfl⟩ := Option.map_eq_some_iff.mp ticked
    exact ⟨draining.reached,mirrors,timely,draining.onTime⟩

theorem draining_of_run {t : Carried S} (mirrors : m.Mirrors c (limit * bytes) start)
    (timely : start.network.Timely c) (run : Runs.Run (m.carry c) (among ok) start t) :
    m.Draining c ok depth (limit * bytes) start t := by
  have first : m.Draining c ok depth (limit * bytes) start start :=
    ⟨.nil,mirrors,timely,fun i o member =>
      ((timely i).past o member).trans (Nat.le_add_right _ _)⟩
  have kept := run.invariant (fun _ _ _ before allowed taken =>
    Draining.carry lawful size small room built deliverable within descends before allowed taken) first
  exact kept

omit lawful size small room built deliverable in
/-- While packets are under way, no more time has passed than all hops take. -/
theorem Draining.soon {s : Carried S} (draining : m.Draining c ok depth (limit * bytes) start s)
    (member : fl ∈ (m.fabric s.program).inflight) :
    ∃ queue, fl.hop ∈ (s.network.queues queue).enqueued ∧ s.network.events.now ≤
      start.network.events.now + total * (limit * bytes * c.spec.psPerByte) := by
  obtain ⟨r,found,_⟩ := (within _ draining.reached).routed fl member
  have crosses : fl ∈ c.across r.queue (m.fabric s.program).inflight :=
    List.mem_filter.mpr ⟨member,by simp [Cabling.queueOf,found]⟩
  have inside := (draining.mirrors.carries.content r.queue).mem_iff.mp
    (List.mem_map_of_mem crosses)
  obtain ⟨o,here,same,late⟩ := draining.timely.soon draining.mirrors.sound
    (draining.mirrors.carries.taken r.queue) inside
  have came := draining.onTime r.queue o here
  have below := descends.below _ draining.reached fl member
  have most := Nat.mul_le_mul_right (limit * bytes * c.spec.psPerByte) below
  rw [Nat.succ_mul] at most
  rw [same] at came
  exact ⟨r.queue,inside,by omega⟩

theorem Draining.next {s : Carried S} (draining : m.Draining c ok depth (limit * bytes) start s)
    (busy : (m.fabric s.program).inflight ≠ []) :
    ∃ t, Runs.Run (m.carry c) (among fun _ _ => False) s t ∧
      m.Draining c ok depth (limit * bytes) start t ∧
      t.network.events.now ≤
        start.network.events.now + total * (limit * bytes * c.spec.psPerByte) ∧
      ∃ fl ∈ (m.fabric s.program).inflight,
        (m.fabric t.program).inflight = (m.fabric s.program).inflight.erase fl ++
          Fabric.fly fl.turn ((m.fabric s.program).net.sends c.cfg (m.fabric s.program).objs fl.hop) := by
  obtain ⟨fl,member⟩ := List.exists_mem_of_ne_nil _ busy
  obtain ⟨queue,inside,_⟩ := draining.soon within descends member
  have sound := draining.mirrors.sound
  have armed : s.network.events.pending ≠ [] := by
    obtain ⟨served,waiting,served'⟩ := sound.serves queue
    have one := served'.tailDrop.pending
    rw [if_neg (List.ne_nil_of_mem inside)] at one
    intro none
    rw [EventList.due,none] at one
    cases one
  have future (e : Nat × Nat) (pending : e ∈ s.network.events.pending) :
      s.network.events.now ≤ e.1 := by
    obtain ⟨served,waiting,served'⟩ := sound.serves e.2
    have due : e.1 ∈ s.network.events.due e.2 :=
      List.mem_map.mpr ⟨e,List.mem_filter.mpr ⟨pending,by simp⟩,rfl⟩
    rw [served'.due] at due
    exact served'.punctual _ (List.mem_of_mem_take due)
  obtain ⟨d,events,src,ticked,due⟩ := EventList.exists_next armed future
  let later : Carried S := { s with network := { s.network with events := events } }
  have tick : m.carry c (.tick d) s = some later := by
    simp only [Protocol.carry,QueueNetwork.step,if_neg (Bool.eq_false_iff.mp sound.front),ticked]
    rfl
  have allowed : among ok (.tick d) s := trivial
  have waits : m.Draining c ok depth (limit * bytes) start later :=
    draining.carry lawful size small room built deliverable within descends allowed tick
  obtain ⟨t,fired⟩ := doNextEvent_enabled lawful size small room waits.mirrors
    (within _ waits.reached)
    (fun fl p stepped => within p (waits.reached.snoc (deliverable fl _) stepped))
    (descends.ready _ waits.reached) due
  obtain ⟨g,_,_,also,_,stepped,popped⟩ := doNextEvent_spec size small built waits.mirrors fired
  obtain ⟨_,_,bound⟩ := waits.soon within descends member
  have ticks : among (fun (_ : L) (_ : S) => False) (.tick d) s := trivial
  have fires : among (fun (_ : L) (_ : S) => False) (.doNextEvent src) later := trivial
  refine ⟨t,(Runs.Run.snoc .nil ticks tick).snoc fires fired,
    waits.doNextEvent lawful size small room built deliverable within descends fired,?_,g,also,?_⟩
  · rw [QueueNetwork.now_doNextEvent popped]
    exact bound
  · rw [lawful.delivers g _ _ stepped,Fabric.inflight_deliver_eq]

def remaining (m : Protocol L S) (depth : Hop → Nat) (total : Nat) (p : S) : Multiset Nat :=
  ((m.fabric p).inflight.map fun fl => total - depth fl.hop : List Nat)

/-- By themselves the events deliver all packets, in the time of all hops. -/
theorem Draining.drains {s : Carried S} (draining : m.Draining c ok depth (limit * bytes) start s)
    (soon : s.network.events.now ≤
      start.network.events.now + total * (limit * bytes * c.spec.psPerByte)) :
    ∃ t, Runs.Run (m.carry c) (among fun _ _ => False) s t ∧
      m.Draining c ok depth (limit * bytes) start t ∧ (m.fabric t.program).inflight = [] ∧
      t.network.events.now ≤
        start.network.events.now + total * (limit * bytes * c.spec.psPerByte) := by
  have order : WellFounded (Multiset.IsDershowitzMannaLT : Multiset Nat → Multiset Nat → Prop) :=
    Multiset.wellFounded_isDershowitzMannaLT
  generalize bag' : m.remaining depth total s.program = bag
  induction bag using order.induction generalizing s with
  | _ bag ih =>
    by_cases quiet : (m.fabric s.program).inflight = []
    · exact ⟨s,.nil,draining,quiet,soon⟩
    obtain ⟨u,run,next,bound,fl,member,inflight⟩ :=
      draining.next lawful size small room built deliverable within descends quiet
    have less : (m.remaining depth total u.program).IsDershowitzMannaLT bag := by
      rw [← bag',remaining,inflight]
      refine Runs.replace_lt _ member fun g sent => ?_
      obtain ⟨hop,new,rfl⟩ := List.mem_map.mp sent
      have deeper := descends.deeper _ draining.reached fl member hop new
      have below := descends.below _ draining.reached fl member
      change total - depth hop < total - depth fl.hop
      omega
    obtain ⟨t,more,rest⟩ := ih _ less next bound rfl
    exact ⟨t,run.trans more,rest⟩

end drain
end Protocol
end CloudSim
