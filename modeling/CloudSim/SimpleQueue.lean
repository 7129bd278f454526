import CloudSim.EventList
import CloudSim.Lindley
import CloudSim.Packet

/-! A queue drops what it has no room for and sends the rest at its bit rate, in order. -/
namespace CloudSim

/-- An arrival: the packets that were in the queue, and whether the new one was taken. -/
structure Offer (P : Type) where
  time : Nat
  held : List P
  packet : P
  taken : Bool
  deriving DecidableEq, Repr

/-- `offers` and `left` are history: the arrivals, and the packets that left with their times. -/
structure SimpleQueue (P : Type) where
  enqueued : List P := []
  queuesize : Int := 0
  offers : List (Offer P) := []
  left : List (Nat × P) := []

/-- What the constructor fixes, and `Packet::size`. -/
structure QueueSpec (P : Type) where
  bitrate : Nat
  maxsize : Nat
  size : P → Nat

namespace QueueSpec
variable (spec : QueueSpec P)

def psPerByte : Nat := 8000000000000 / spec.bitrate

def drainTime (p : P) : Nat := u64 (spec.size p * spec.psPerByte)

/-- A packet's arrival and how long it takes to send. -/
def job (e : Nat × P) : Nat × Nat := (e.1,spec.size e.2 * spec.psPerByte)

theorem drainTime_eq (small : spec.size p < 2^16) :
    spec.drainTime p = spec.size p * spec.psPerByte := by
  have rate : spec.psPerByte ≤ 8000000000000 := Nat.div_le_self _ _
  have product := Nat.mul_le_mul (Nat.le_of_lt small) rate
  exact u64_of_lt (product.trans_lt (by decide))

end QueueSpec

namespace SimpleQueue

/-- The queue after the arrival of `p`, and the delay after which it asks to be called. -/
def receivePacket (spec : QueueSpec P) (now : Nat) (q : SimpleQueue P) (p : P) :
    SimpleQueue P × Option Nat :=
  if spec.maxsize < q.queuesize + spec.size p then
    ({ q with offers := q.offers ++ [Offer.mk now q.enqueued p false] },none)
  else
    let q := { q with
      enqueued := q.enqueued ++ [p]
      queuesize := q.queuesize + spec.size p
      offers := q.offers ++ [Offer.mk now q.enqueued p true] }
    match q.enqueued with
    | [front] => (q,some (spec.drainTime front))
    | _ => (q,none)

/-- The packet in front leaves. -/
def pop (spec : QueueSpec P) (now : Nat) (q : SimpleQueue P) (front : P) (rest : List P) :
    SimpleQueue P :=
  { q with
    enqueued := rest
    queuesize := q.queuesize - spec.size front
    left := q.left ++ [(now,front)] }

/-- The packets that were taken, with the times of their arrivals. -/
def accepted (q : SimpleQueue P) : List (Nat × P) :=
  (q.offers.filter Offer.taken).map fun o => (o.time,o.packet)

/-- The content is counted right and fits. Packets are dropped when they would not fit and leave in
the order and at the times at which a server sends them; one event is pending, for the packet in
front. -/
structure TailDrop (spec : QueueSpec P) (now : Nat) (due : List Nat) (q : SimpleQueue P) : Prop where
  queuesize : q.queuesize = (q.enqueued.map spec.size).sum
  room : (q.enqueued.map spec.size).sum ≤ spec.maxsize
  pending : due.length = if q.enqueued = [] then 0 else 1
  drops : ∀ o ∈ q.offers,
    o.taken = false ↔ spec.maxsize < (o.held.map spec.size).sum + spec.size o.packet
  order : q.left.map Prod.snd ++ q.enqueued = q.accepted.map Prod.snd
  departures : q.left.map Prod.fst =
    (Lindley.departures 0 (q.accepted.map spec.job)).take q.left.length
  next : due = ((Lindley.departures 0 (q.accepted.map spec.job)).drop q.left.length).take 1
  punctual : ∀ d ∈ (Lindley.departures 0 (q.accepted.map spec.job)).drop q.left.length, now ≤ d

/-- The packets `served` have left, and `waiting` are in the queue. -/
structure Served (spec : QueueSpec P) (now : Nat) (due : List Nat) (q : SimpleQueue P)
    (served waiting : List (Nat × P)) : Prop where
  queuesize : q.queuesize = (q.enqueued.map spec.size).sum
  room : (q.enqueued.map spec.size).sum ≤ spec.maxsize
  drops : ∀ o ∈ q.offers,
    o.taken = false ↔ spec.maxsize < (o.held.map spec.size).sum + spec.size o.packet
  accepted : q.accepted = served ++ waiting
  arrived : ∀ e ∈ waiting, e.1 ≤ now
  enqueued : q.enqueued = waiting.map Prod.snd
  packets : q.left.map Prod.snd = served.map Prod.snd
  times : q.left.map Prod.fst = Lindley.departures 0 (served.map spec.job)
  free : Lindley.freeAfter 0 (served.map spec.job) ≤ now
  due : due = (Lindley.departures (Lindley.freeAfter 0 (served.map spec.job))
    (waiting.map spec.job)).take 1
  punctual : ∀ d ∈ Lindley.departures (Lindley.freeAfter 0 (served.map spec.job))
    (waiting.map spec.job), now ≤ d

variable {spec : QueueSpec P} {now : Nat} {due : List Nat} {q : SimpleQueue P}
  {served waiting : List (Nat × P)}

theorem initial_served (spec : QueueSpec P) (now : Nat) :
    Served spec now [] ({} : SimpleQueue P) [] [] := by
  constructor <;> simp [SimpleQueue.accepted]

theorem Served.tailDrop (kept : Served spec now due q served waiting) : TailDrop spec now due q := by
  have length : q.left.length = (Lindley.departures 0 (served.map spec.job)).length := by
    simpa using congrArg List.length kept.packets
  have split : Lindley.departures 0 (q.accepted.map spec.job) =
      Lindley.departures 0 (served.map spec.job) ++
        Lindley.departures (Lindley.freeAfter 0 (served.map spec.job)) (waiting.map spec.job) := by
    rw [kept.accepted,List.map_append,Lindley.departures_append]
  constructor
  case queuesize => exact kept.queuesize
  case room => exact kept.room
  case drops => exact kept.drops
  case pending =>
    rw [kept.due,kept.enqueued]
    cases waiting <;> simp [Lindley.departures]
  case order => rw [kept.packets,kept.enqueued,kept.accepted,List.map_append]
  case departures => rw [split,length,List.take_left,kept.times]
  case next => rw [split,length,List.drop_left]; exact kept.due
  case punctual => rw [split,length,List.drop_left]; exact kept.punctual

theorem mem_receivePacket (q : SimpleQueue P)
    (member : p' ∈ (q.receivePacket spec now p).1.enqueued) : p' ∈ q.enqueued ∨ p' = p := by
  unfold receivePacket at member
  split at member
  · exact Or.inl member
  · dsimp only at member
    split at member <;> simpa using member

theorem receivePacket_eq (kept : Served spec now due q served waiting) (p : P) :
    (spec.maxsize < (q.enqueued.map spec.size).sum + spec.size p ∧
      q.receivePacket spec now p =
        ({ q with offers := q.offers ++ [⟨now,q.enqueued,p,false⟩] },none)) ∨
    ((q.enqueued.map spec.size).sum + spec.size p ≤ spec.maxsize ∧
      q.receivePacket spec now p =
        ({ q with
          enqueued := q.enqueued ++ [p]
          queuesize := q.queuesize + spec.size p
          offers := q.offers ++ [⟨now,q.enqueued,p,true⟩] },
        if q.enqueued = [] then some (spec.drainTime p) else none)) := by
  have counted := kept.queuesize
  unfold receivePacket
  split
  · left
    exact ⟨by omega,rfl⟩
  · right
    refine ⟨by omega,?_⟩
    cases q.enqueued with
    | nil => rfl
    | cons front rest => cases rest <;> rfl

theorem Served.drop (kept : Served spec now due q served waiting) {p : P}
    (full : spec.maxsize < (q.enqueued.map spec.size).sum + spec.size p) :
    Served spec now due { q with offers := q.offers ++ [⟨now,q.enqueued,p,false⟩] } served waiting where
  queuesize := kept.queuesize
  room := kept.room
  drops := by
    intro o member
    rcases List.mem_append.mp member with old | new
    · exact kept.drops o old
    · rw [List.mem_singleton.mp new]
      exact ⟨fun _ => full,fun _ => rfl⟩
  accepted := by simpa [SimpleQueue.accepted] using kept.accepted
  arrived := kept.arrived
  enqueued := kept.enqueued
  packets := kept.packets
  times := kept.times
  free := kept.free
  due := kept.due
  punctual := kept.punctual

theorem Served.take (kept : Served spec now due q served waiting) {p : P}
    (small : spec.size p < 2^16)
    (fits : (q.enqueued.map spec.size).sum + spec.size p ≤ spec.maxsize)
    (armed : due' = if q.enqueued = [] then [now + spec.drainTime p] else due) :
    Served spec now due' { q with
      enqueued := q.enqueued ++ [p]
      queuesize := q.queuesize + spec.size p
      offers := q.offers ++ [⟨now,q.enqueued,p,true⟩] } served (waiting ++ [(now,p)]) := by
  have drain := spec.drainTime_eq small
  have counted := kept.queuesize
  constructor
  case queuesize => simp [counted]
  case room => simpa using fits
  case drops =>
    intro o member
    rcases List.mem_append.mp member with old | new
    · exact kept.drops o old
    · rw [List.mem_singleton.mp new]
      simpa using fits
  case accepted =>
    have old := kept.accepted
    simp only [SimpleQueue.accepted] at old
    simp [SimpleQueue.accepted,old]
  case arrived =>
    intro e member
    rcases List.mem_append.mp member with old | new
    · exact kept.arrived e old
    · rw [List.mem_singleton.mp new]
  case enqueued => simp [kept.enqueued]
  case packets => exact kept.packets
  case times => exact kept.times
  case free => exact kept.free
  case due =>
    rw [armed,kept.due,kept.enqueued]
    cases waiting with
    | nil => simp [Lindley.departures_idle kept.free,QueueSpec.job,drain]
    | cons first rest => simp [Lindley.departures]
  case punctual =>
    rw [List.map_append,Lindley.departures_append]
    intro d member
    rcases List.mem_append.mp member with old | new
    · exact kept.punctual d old
    · exact Lindley.arrival_le_departures _ _ now _ d new

theorem Served.tick (kept : Served spec now due q served waiting) (later : now ≤ now')
    (early : ∀ d ∈ due, now' ≤ d) : Served spec now' due q served waiting := by
  refine { kept with
    arrived := fun e member => Nat.le_trans (kept.arrived e member) later
    free := Nat.le_trans kept.free later
    punctual := fun d member => ?_ }
  rw [kept.due] at early
  cases shape : waiting.map spec.job with
  | nil => simp [shape] at member
  | cons job rest =>
    rw [shape,Lindley.departures] at member early
    have first := early _ (List.mem_singleton_self _)
    rcases List.mem_cons.mp member with rfl | behind
    · exact first
    · exact Nat.le_trans first (Lindley.le_departures _ _ d behind)

/-- The event that a queue asks for when it begins to send the packet in front. -/
def begun (spec : QueueSpec P) (now : Nat) (enqueued : List P) : List Nat :=
  (enqueued.take 1).map fun next => now + spec.drainTime next

/-- When the event of the queue is due, the packet in front leaves, and the next one begins. -/
theorem Served.pop (kept : Served spec now due q served waiting) (timely : now ∈ due)
    (small : ∀ p, spec.size p < 2^16) :
    ∃ front rest, q.enqueued = front :: rest ∧ due = [now] ∧
      ∃ served waiting, Served spec now (begun spec now rest) (q.pop spec now front rest)
        served waiting := by
  have armed := kept.due
  have enqueued := kept.enqueued
  have counted := kept.queuesize
  have room := kept.room
  cases waiting with
  | nil => simp [armed] at timely
  | cons e behind =>
    obtain ⟨arrival,front⟩ := e
    rw [List.map_cons,QueueSpec.job,Lindley.departures,List.take_succ_cons,List.take_zero] at armed
    rw [armed,List.mem_singleton] at timely
    rw [List.map_cons] at enqueued
    have free : Lindley.freeAfter 0 ((served ++ [(arrival,front)]).map spec.job) = now := by
      rw [List.map_append,Lindley.freeAfter_append,timely]
      rfl
    rw [enqueued,List.map_cons,List.sum_cons] at counted room
    refine ⟨front,behind.map Prod.snd,enqueued,armed.trans (by rw [← timely]),
      served ++ [(arrival,front)],behind,?_⟩
    constructor
    case queuesize =>
      simp only [SimpleQueue.pop,counted]
      omega
    case room =>
      simp only [SimpleQueue.pop]
      omega
    case drops => exact kept.drops
    case accepted => exact kept.accepted.trans (List.append_cons served _ behind)
    case arrived => exact fun e member => kept.arrived e (List.mem_cons_of_mem _ member)
    case enqueued => rfl
    case packets => simp [SimpleQueue.pop,kept.packets]
    case times =>
      rw [List.map_append,Lindley.departures_append,← kept.times]
      simp [SimpleQueue.pop,QueueSpec.job,Lindley.departures,← timely]
    case free => exact Nat.le_of_eq free
    case due =>
      rw [free]
      cases behind with
      | nil => rfl
      | cons next later =>
        have early := kept.arrived next (by simp)
        rw [List.map_cons,List.map_cons,QueueSpec.job,Lindley.departures_waiting early]
        simp [begun,spec.drainTime_eq (small next.2)]
    case punctual =>
      rw [free]
      exact Lindley.le_departures _ _

end SimpleQueue
end CloudSim
