import CloudSim.QueueNetwork
import Mathlib.Algebra.BigOperators.Group.List.Basic
import Mathlib.Algebra.BigOperators.Ring.List

/-! How long packets stay in the queues of a network, and how fast the queues send them. -/
namespace CloudSim

namespace QueueSpec
variable (spec : QueueSpec P)

def cost (ps : List P) : Nat := (ps.map spec.size).sum * spec.psPerByte

/-- A packet that arrives waits for those in the queue, and is sent itself. -/
def backlog (o : Offer P) : Nat := spec.cost (o.held ++ [o.packet])

theorem cost_jobs (es : List (Nat × P)) :
    ((es.map spec.job).map Prod.snd).sum = spec.cost (es.map Prod.snd) := by
  rw [cost,← List.sum_map_mul_right,List.map_map,List.map_map]
  rfl

end QueueSpec

namespace SimpleQueue
variable {spec : QueueSpec P} {now : Nat} {due : List Nat} {q : SimpleQueue P}
  {served waiting : List (Nat × P)}

def kept (q : SimpleQueue P) : List (Offer P) := q.offers.filter Offer.taken

/-- Between which times a packet leaves that arrived in `o`. -/
def InTime (spec : QueueSpec P) (o : Offer P) (departure : Nat) : Prop :=
  o.time + spec.cost [o.packet] ≤ departure ∧ departure ≤ o.time + spec.backlog o

/-- The delays of one queue and its rate. `waiting` is about the packets that are still to leave. -/
structure Prompt (spec : QueueSpec P) (now : Nat) (q : SimpleQueue P) : Prop where
  left : List.Forall₂ (fun o e => e.2 = o.packet ∧ InTime spec o e.1)
    (q.kept.take q.left.length) q.left
  waiting : ∀ o ∈ q.kept.drop q.left.length, o.time ≤ now ∧ now ≤ o.time + spec.backlog o
  bounded : ∀ o ∈ q.kept, spec.backlog o ≤ spec.maxsize * spec.psPerByte
  rate : ∀ before first between last after, q.left = before ++ first :: between ++ last :: after →
    first.1 + spec.cost ((between ++ [last]).map Prod.snd) ≤ last.1

/-- The same about all packets that were taken, with the times at which a server sends them. -/
structure Timely (spec : QueueSpec P) (now : Nat) (q : SimpleQueue P) : Prop where
  past : ∀ o ∈ q.offers, o.time ≤ now
  inTime : List.Forall₂ (InTime spec) q.kept (Lindley.departures 0 (q.accepted.map spec.job))

theorem Timely.later (timely : Timely spec now q) (later : now ≤ now') : Timely spec now' q :=
  ⟨fun o member => (timely.past o member).trans later,timely.inTime⟩

theorem Timely.pop (timely : Timely spec now q) (front : P) (rest : List P) :
    Timely spec now (q.pop spec now front rest) := ⟨timely.past,timely.inTime⟩

/-- A packet that is taken is served when those before it have been. -/
theorem inTime_of_take (served' : Served spec now due q served waiting) (p : P) :
    InTime spec ⟨now,q.enqueued,p,true⟩ (max now (Lindley.freeAfter 0 (q.accepted.map spec.job)) +
      spec.size p * spec.psPerByte) := by
  have before : Lindley.freeAfter 0 (q.accepted.map spec.job) ≤ now + 0 + spec.cost q.enqueued := by
    rw [served'.accepted,List.map_append,Lindley.freeAfter_append,served'.enqueued,← spec.cost_jobs]
    refine Lindley.freeAfter_le (fun job member => ?_) served'.free
    obtain ⟨e,inside,rfl⟩ := List.mem_map.mp member
    exact served'.arrived e inside
  simp only [InTime,QueueSpec.backlog,QueueSpec.cost,List.map_append,List.sum_append,
    List.map_singleton,List.sum_singleton,Nat.add_mul] at before ⊢
  omega

theorem Timely.receivePacket (timely : Timely spec now q)
    (served' : Served spec now due q served waiting) (p : P) :
    Timely spec now (q.receivePacket spec now p).1 := by
  have past (new o : Offer P) (same : new.time = now) (member : o ∈ q.offers ++ [new]) :
      o.time ≤ now := by
    rcases List.mem_append.mp member with old | one
    · exact timely.past o old
    · rw [List.mem_singleton.mp one,same]
  rcases receivePacket_eq served' p with ⟨_,result⟩ | ⟨_,result⟩
  · rw [result]
    refine ⟨fun o => past _ o rfl,?_⟩
    simpa [kept,accepted] using timely.inTime
  · rw [result]
    refine ⟨fun o => past _ o rfl,?_⟩
    have one := List.Forall₂.cons (inTime_of_take served' p) .nil
    have all := List.rel_append timely.inTime one
    simpa [kept,accepted,Lindley.departures_append,Lindley.departures,QueueSpec.job] using all

/-- What the packets of a queue cost is what a server is busy with. -/
theorem Served.costs (served' : Served spec now due q served waiting) :
    (served.map spec.job).map Prod.snd =
      q.left.map fun e => spec.size e.2 * spec.psPerByte := by
  have packets := congrArg (List.map fun p => spec.size p * spec.psPerByte) served'.packets
  rw [List.map_map,List.map_map] at packets
  rw [List.map_map]
  exact packets.symm

/-- Between two departures the queue sends the packets between them, and the second. -/
theorem Served.rate (served' : Served spec now due q served waiting)
    (split : q.left = before ++ first :: between ++ last :: after) :
    first.1 + spec.cost ((between ++ [last]).map Prod.snd) ≤ last.1 := by
  have times := served'.times
  rw [split,List.append_assoc,List.map_append] at times
  obtain ⟨jobs,job,rest,same,length,_,times⟩ := Lindley.departures_cut times.symm
  rw [show (between.append (last :: after)).map Prod.fst =
    between.map Prod.fst ++ last.1 :: after.map Prod.fst from List.map_append] at times
  obtain ⟨inner,next,later,rfl,also,departs,_⟩ := Lindley.departures_cut times.symm
  let f (e : Nat × P) : Nat := spec.size e.2 * spec.psPerByte
  have costs : jobs.map Prod.snd ++ job.2 :: (inner.map Prod.snd ++ next.2 :: later.map Prod.snd) =
      before.map f ++ f first :: (between.map f ++ f last :: after.map f) := by
    have all := served'.costs
    rw [same,split] at all
    simpa using all
  obtain ⟨_,costs⟩ := List.append_inj costs (by simpa using length)
  obtain ⟨inside,costs⟩ := List.append_inj (List.cons.inj costs).2 (by simpa using also)
  have end' := (List.cons.inj costs).1
  have total : ((inner ++ [next]).map Prod.snd).sum = spec.cost ((between ++ [last]).map Prod.snd) := by
    rw [QueueSpec.cost,List.map_map,← List.sum_map_mul_right,List.map_append,List.map_append,
      inside,List.map_singleton,end']
    rfl
  rw [← total,departs]
  exact Lindley.le_freeAfter _ _

theorem Timely.prompt (timely : Timely spec now q) (served' : Served spec now due q served waiting) :
    Prompt spec now q := by
  have packets := served'.packets
  have times := served'.times
  have inTime := timely.inTime
  rw [served'.accepted,List.map_append,Lindley.departures_append,← times] at inTime
  have listed : q.kept.map (fun o => (o.time,o.packet)) = served ++ waiting := served'.accepted
  have count : q.left.length = served.length := by simpa using congrArg List.length packets
  constructor
  case left =>
    have soon : List.Forall₂ (fun o e => InTime spec o e.1) (q.kept.take q.left.length) q.left := by
      have first := List.forall₂_take_append q.kept _ _ inTime
      rw [List.length_map] at first
      exact List.forall₂_map_right_iff.mp first
    have same : List.Forall₂ (fun o e => Prod.snd e = o.packet)
        (q.kept.take q.left.length) q.left := by
      have names := congrArg (fun es => (es.take served.length).map Prod.snd) listed
      rw [List.take_left,← packets,← List.map_take,List.map_map,← count] at names
      have equal : List.Forall₂ (fun a b => b = a)
          ((q.kept.take q.left.length).map Offer.packet) (q.left.map Prod.snd) :=
        names ▸ List.forall₂_same.mpr fun _ _ => rfl
      exact List.forall₂_map_right_iff.mp (List.forall₂_map_left_iff.mp equal)
    exact same.mp (fun _ _ => And.intro) soon
  case waiting =>
    intro o member
    have late := List.forall₂_drop_append q.kept _ _ inTime
    rw [List.length_map] at late
    obtain ⟨k,inside,rfl⟩ := List.getElem_of_mem member
    have departs := late.get inside (late.length_eq ▸ inside)
    have punctual := served'.punctual _ (List.get_mem _ ⟨k,late.length_eq ▸ inside⟩)
    refine ⟨?_,punctual.trans departs.2⟩
    exact timely.past _ (List.mem_of_mem_filter (List.mem_of_mem_drop member))
  case bounded =>
    intro o member
    obtain ⟨inside,taken⟩ := List.mem_filter.mp member
    have fits := mt (served'.drops o inside).mpr (by simp [taken])
    refine Nat.mul_le_mul_right _ ?_
    simpa using Nat.not_lt.mp fits
  case rate => exact fun _ _ _ _ _ split => served'.rate split

end SimpleQueue

/-- What comes from the end of a link does not come back to its queue. -/
theorem OneLinkEach.away {route : Node → Node → Option Route} (one : OneLinkEach route) {x : Node}
    (came : ∃ a b r, route a b = some r ∧ r.queue = i ∧ r.last = x) (found : route x b = some r) :
    r.queue ≠ i := by
  obtain ⟨a,_,before,there,rfl,last⟩ := came
  intro same
  obtain ⟨back,_⟩ := one.own _ _ _ _ _ _ found there same
  exact one.apart _ _ _ there (back.symm.trans last.symm)

namespace QueueNetwork
variable {c : Cabling} {s t : QueueNetwork} {i queue : Nat} {hop : Hop}

/-- All queues are in time. -/
def Timely (c : Cabling) (s : QueueNetwork) : Prop :=
  ∀ i, (s.queues i).Timely c.spec s.events.now

theorem receivePacket_timely (serves : Serves c s queue) (timely : Timely c s) :
    Timely c (s.receivePacket c queue hop) := by
  intro i
  rw [receivePacket_now]
  rcases eq_or_ne i queue with rfl | other
  · obtain ⟨served,waiting,served'⟩ := serves
    rw [receivePacket_queue]
    exact (timely i).receivePacket served' hop
  · rw [(receivePacket_other other).1]
    exact timely i

/-- What the object behind queue `i` sends comes in time to the other queues. -/
theorem deliver_timely (one : OneLinkEach c.route) (small : ∀ hop, c.spec.size hop < 2^16)
    (came : ∃ a b r, c.route a b = some r ∧ r.queue = i ∧ r.last = hop.dest)
    (serves : ∀ k ≠ i, Serves c s k) (timely : Timely c s) (delivered : s.deliver c hop = some t) :
    Timely c t := by
  have sends (src : Node) (hop' : Hop) (same : src = hop.dest) (s t : QueueNetwork)
      (before : (∀ k ≠ i, Serves c s k) ∧ Timely c s) (sent : s.sendOnSimple c src hop' = some t) :
      (∀ k ≠ i, Serves c t k) ∧ Timely c t := by
    obtain ⟨r,found,rfl⟩ := Option.map_eq_some_iff.mp sent
    have away : r.queue ≠ i := one.away came (same ▸ found)
    exact ⟨fun k other => receivePacket_serves small (before.1 k other),
      receivePacket_timely (before.1 _ away) before.2⟩
  unfold deliver at delivered
  split at delivered
  all_goals
    rename_i dest
    have kept := Runs.foldlM_invariant (fun hop' => sends _ hop' dest.symm) delivered ⟨serves,timely⟩
    exact kept.2

theorem doNextEvent_timely (one : OneLinkEach c.route) (small : ∀ hop, c.spec.size hop < 2^16)
    (sound : Sound c s) (timely : Timely c s) {ev : EventList Nat}
    (fired : s.events.fire queue = some ev)
    (taken : doNextEvent c { s with events := ev } queue = some t) : Timely c t := by
  obtain ⟨time,_,_,others⟩ := EventList.fire_spec fired
  unfold doNextEvent at taken
  dsimp only at taken
  split at taken
  · cases taken
    intro i
    exact time ▸ timely i
  · rename_i front rest shape
    obtain ⟨u,delivered,rfl⟩ := Option.map_eq_some_iff.mp taken
    have after : Timely c u := by
      refine deliver_timely one small (i := queue)
        (sound.onRoutes queue front (shape ▸ List.mem_cons_self)) (fun k other => ?_) (fun k => ?_)
        delivered
      · exact (sound.serves k).other time ⟨Function.update_of_ne other _ _,others k other⟩
      · dsimp only
        rw [time]
        rcases eq_or_ne k queue with rfl | other
        · rw [Function.update_self]
          exact (timely k).pop front rest
        · rw [Function.update_of_ne other]
          exact timely k
    unfold rearm
    split <;> exact after

theorem step_timely (one : OneLinkEach c.route) (small : ∀ hop, c.spec.size hop < 2^16)
    (l : QueueLabel) (sound : Sound c s) (timely : Timely c s) (taken : step c l s = some t) :
    Timely c t := by
  unfold step at taken
  rw [if_neg (Bool.eq_false_iff.mp sound.front)] at taken
  cases l with
  | tick d =>
    obtain ⟨events,ticked,rfl⟩ := Option.map_eq_some_iff.mp taken
    have later := (EventList.tick_spec ticked).1
    exact fun i => (timely i).later (by dsimp only; omega)
  | sendOnSimple src hop =>
    obtain ⟨r,_,rfl⟩ := Option.map_eq_some_iff.mp taken
    exact receivePacket_timely (sound.serves _) timely
  | doNextEvent queue =>
    obtain ⟨events,fired,taken⟩ := Option.bind_eq_some_iff.mp taken
    exact doNextEvent_timely one small sound timely fired taken
  | change net objs =>
    cases taken
    exact timely

theorem timely_of_run (built : Built c.route) (small : ∀ hop, c.spec.size hop < 2^16)
    {net : Network} {objs : Objects}
    (run : Runs.Run (step c) Runs.anyStep { net := net, objs := objs } s) :
    Sound c s ∧ Timely c s := by
  have preserved (l : QueueLabel) (s t : QueueNetwork) (before : Sound c s ∧ Timely c s)
      (_ : Runs.anyStep l s) (taken : step c l s = some t) : Sound c t ∧ Timely c t :=
    ⟨step_sound built.oneLinkEach small l s t before.1 taken,
      step_timely built.oneLinkEach small l before.1 before.2 taken⟩
  have first : Timely c { net := net, objs := objs } := fun i => ⟨fun o member => (by cases member),.nil⟩
  have kept := run.invariant preserved ⟨initial_sound c net objs,first⟩
  exact kept

/-- A packet that is not dropped leaves its queue when it has been sent, and those that were before
it: within the time that a full queue takes. A queue never sends faster than its bit rate. -/
theorem queues_are_prompt (c : Cabling) (built : Built c.route)
    (small : ∀ hop, c.spec.size hop < 2^16) (net : Network) (objs : Objects) (s : QueueNetwork)
    (run : Runs.Run (step c) Runs.anyStep { net := net, objs := objs } s) (i : Nat) :
    (s.queues i).Prompt c.spec s.events.now := by
  obtain ⟨sound,timely⟩ := timely_of_run built small run
  obtain ⟨served,waiting,served'⟩ := sound.serves i
  exact (timely i).prompt served'

/-- The third packet of worker 0 is dropped; the second waits for the first. -/
theorem queues_are_prompt_two_workers :
    ∃ s : QueueNetwork,
      Runs.Run (step twoWorkers) Runs.anyStep { net := aggregating, objs := objects } s ∧
      ((s.queues 1).left.map Prod.fst = [3,6] ∧
        (s.queues 1).kept.map twoWorkers.spec.backlog = [3,6]) ∧
      (s.queues 1).Prompt twoWorkers.spec s.events.now := by
  have ends : (Runs.exec (step twoWorkers) Runs.anyStep
      [contribute 0 0,contribute 0 1,contribute 0 2,.tick 3,.doNextEvent 1,.tick 3,.doNextEvent 1]
      { net := aggregating, objs := objects }).map
      (fun s => decide ((s.queues 1).left.map Prod.fst = [3,6] ∧
        (s.queues 1).kept.map twoWorkers.spec.backlog = [3,6])) = some true := by decide +kernel
  obtain ⟨s,run,view⟩ := Runs.exists_run_of_exec ends
  exact ⟨s,run,of_decide_eq_true view,
    queues_are_prompt twoWorkers (.custom 2) (fun _ => show 3 < 2^16 by decide) aggregating objects
      s run 1⟩

end QueueNetwork
end CloudSim
