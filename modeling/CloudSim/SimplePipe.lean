import CloudSim.EventList
import CloudSim.Packet
import CloudSim.Runs

/-! A pipe holds every packet for a fixed delay. It arms one event for the packet in front. -/
namespace CloudSim

/-- `arrived`, `delivered` and `frontOfEmpty` are history: the packets with the times at which
they came in and went out, and whether the front of an empty queue was read. -/
structure SimplePipe (P : Type) where
  events : EventList Unit := {}
  inflight : List (Nat × P) := []
  arrived : List (Nat × P) := []
  delivered : List (Nat × P) := []
  frontOfEmpty : Bool := false

/-- `entered` are the packets that come in while `sendOnSimple` passes one on. -/
inductive PipeStep (P : Type) where
  | tick (d : Nat)
  | receivePacket (p : P)
  | doNextEvent (entered : List P)

namespace SimplePipe

def receivePacket (delay : Nat) (s : SimplePipe P) (p : P) : SimplePipe P :=
  { s with
    events := if s.inflight = [] then s.events.sourceIsPendingRel () delay else s.events
    inflight := s.inflight ++ [(u64 (s.events.now + delay),p)]
    arrived := s.arrived ++ [(s.events.now,p)] }

/-- The pipe arms the next event whether or not there is a packet in front. -/
def doNextEvent (delay : Nat) (s : SimplePipe P) (entered : List P) : SimplePipe P :=
  match s.inflight with
  | [] => s
  | (_,p) :: rest =>
    let s := entered.foldl (receivePacket delay)
      { s with inflight := rest, delivered := s.delivered ++ [(s.events.now,p)] }
    match s.inflight with
    | [] => { s with frontOfEmpty := true }
    | (time,_) :: _ => { s with events := s.events.sourceIsPending () time }

/-- Nothing is known of a run that has read the front of an empty queue. -/
def step (delay : Nat) (l : PipeStep P) (s : SimplePipe P) : Option (SimplePipe P) :=
  if s.frontOfEmpty then none
  else match l with
    | .tick d => (s.events.tick d).map fun events => { s with events := events }
    | .receivePacket p => some (s.receivePacket delay p)
    | .doNextEvent entered =>
      (s.events.fire ()).map fun events => doNextEvent delay { s with events := events } entered

/-- Every packet leaves once, in order and on time, and the one pending event is for the packet
in front. -/
structure DelayLine (delay : Nat) (s : SimplePipe P) : Prop where
  order : s.delivered ++ s.inflight = s.arrived.map fun e => (e.1 + delay,e.2)
  pending : s.events.due () = (s.inflight.map Prod.fst).take 1
  early : ∀ e ∈ s.inflight, s.events.now ≤ e.1
  front : s.frontOfEmpty = false

/-- The packets in flight are sorted by the time at which they are due. -/
structure Carried (delay : Nat) (s : SimplePipe P) : Prop where
  order : s.delivered ++ s.inflight = s.arrived.map fun e => (e.1 + delay,e.2)
  early : ∀ e ∈ s.inflight, s.events.now ≤ e.1
  front : s.frontOfEmpty = false
  sorted : (s.inflight.map Prod.fst).Pairwise (· ≤ ·)
  recent : ∀ e ∈ s.inflight, e.1 ≤ s.events.now + delay

/-- The packet that leaves is not the last one in flight, and arrival times are 64-bit. -/
def Busy (delay : Nat) : PipeStep P → SimplePipe P → Prop
  | .tick _,_ => True
  | .receivePacket _,s => s.events.now + delay < 2^64
  | .doNextEvent entered,s =>
    2 ≤ s.inflight.length ∧ (entered = [] ∨ s.events.now + delay < 2^64)

instance (delay : Nat) (l : PipeStep P) (s : SimplePipe P) : Decidable (Busy delay l s) :=
  match l with
  | .tick _ => isTrue trivial
  | .receivePacket _ => inferInstanceAs (Decidable (_ < _))
  | .doNextEvent [] => decidable_of_iff (2 ≤ s.inflight.length) (by simp [Busy])
  | .doNextEvent (_ :: _) =>
    decidable_of_iff (2 ≤ s.inflight.length ∧ s.events.now + delay < 2^64) (by simp [Busy])

variable {delay : Nat} {s t : SimplePipe P}

theorem foldl_receivePacket (some : s.inflight ≠ []) (entered : List P) :
    entered.foldl (receivePacket delay) s = { s with
      inflight := s.inflight ++ entered.map fun p => (u64 (s.events.now + delay),p)
      arrived := s.arrived ++ entered.map fun p => (s.events.now,p) } := by
  induction entered generalizing s with
  | nil => simp
  | cons p rest ih =>
    rw [List.foldl_cons,ih (by simp [receivePacket])]
    simp [receivePacket,some]

theorem DelayLine.of_carried (carried : Carried delay s)
    (pending : s.events.due () = (s.inflight.map Prod.fst).take 1) : DelayLine delay s :=
  ⟨carried.order,pending,carried.early,carried.front⟩

namespace Carried
variable (carried : Carried delay s)
include carried

theorem grow (added : List P) (later : t.events.now = s.events.now)
    (inflight : t.inflight = s.inflight ++ added.map fun p => (s.events.now + delay,p))
    (arrived : t.arrived = s.arrived ++ added.map fun p => (s.events.now,p))
    (delivered : t.delivered = s.delivered) (front : t.frontOfEmpty = false) :
    Carried delay t := by
  have old := carried.order
  constructor
  case order => simp [inflight,arrived,delivered,← old,Function.comp_def]
  case front => exact front
  case early =>
    intro e member
    rw [inflight,List.mem_append] at member
    rw [later]
    rcases member with before | new
    · exact carried.early e before
    · obtain ⟨p,_,rfl⟩ := List.mem_map.mp new
      exact Nat.le_add_right _ _
  case recent =>
    intro e member
    rw [inflight,List.mem_append] at member
    rw [later]
    rcases member with before | new
    · exact carried.recent e before
    · obtain ⟨p,_,rfl⟩ := List.mem_map.mp new
      exact Nat.le_refl _
  case sorted =>
    rw [inflight,List.map_append,List.pairwise_append]
    refine ⟨carried.sorted,?_,fun a before b new => ?_⟩
    · simp [Function.comp_def]
    · obtain ⟨e,member,rfl⟩ := List.mem_map.mp before
      simp only [List.map_map,List.mem_map,Function.comp_apply] at new
      obtain ⟨p,_,rfl⟩ := new
      exact carried.recent e member

/-- The packet in front leaves at its time. -/
theorem pop (later : t.events.now = s.events.now)
    (inflight : s.inflight = (s.events.now,p) :: t.inflight) (arrived : t.arrived = s.arrived)
    (delivered : t.delivered = s.delivered ++ [(s.events.now,p)])
    (front : t.frontOfEmpty = false) : Carried delay t := by
  have old := carried.order
  have sorted := carried.sorted
  rw [inflight] at old sorted
  constructor
  case order => simpa [arrived,delivered] using old
  case front => exact front
  case early =>
    intro e member
    rw [later]
    exact carried.early e (inflight ▸ List.mem_cons_of_mem _ member)
  case recent =>
    intro e member
    rw [later]
    exact carried.recent e (inflight ▸ List.mem_cons_of_mem _ member)
  case sorted => exact (List.pairwise_cons.mp sorted).2

theorem tick (pending : s.events.due () = (s.inflight.map Prod.fst).take 1)
    (ticked : s.events.tick d = some ev) : Carried delay { s with events := ev } := by
  obtain ⟨later,same,early⟩ := EventList.tick_spec ticked
  refine ⟨carried.order,fun e member => ?_,carried.front,carried.sorted,fun e member => ?_⟩
  · cases inflight : s.inflight with
    | nil => simp [inflight] at member
    | cons head rest =>
      have sorted := carried.sorted
      rw [inflight] at pending member sorted
      have first : ev.now ≤ head.1 := early () head.1 (by rw [same,pending]; simp)
      rcases List.mem_cons.mp member with rfl | behind
      · exact first
      · exact first.trans ((List.pairwise_cons.mp sorted).1 e.1 (List.mem_map_of_mem behind))
  · have recent := carried.recent e member
    change e.1 ≤ ev.now + delay
    omega

end Carried

theorem doNextEvent_behind (inflight : s.inflight = (time,p) :: next :: rest) (entered : List P) :
    doNextEvent delay s entered = { s with
      events := s.events.sourceIsPending () next.1
      inflight := next :: rest ++ entered.map fun q => (u64 (s.events.now + delay),q)
      arrived := s.arrived ++ entered.map fun q => (s.events.now,q)
      delivered := s.delivered ++ [(s.events.now,p)] } := by
  simp only [doNextEvent,inflight]
  rw [foldl_receivePacket (by simp)]
  rfl

theorem map_entered {entered : List P} (fits : entered = [] ∨ s.events.now + delay < 2^64) :
    (entered.map fun q => (u64 (s.events.now + delay),q)) =
      entered.map fun q => (s.events.now + delay,q) := by
  rcases fits with rfl | small
  · rfl
  · rw [u64_of_lt small]

theorem fire_front (pending : s.events.due () = (s.inflight.map Prod.fst).take 1)
    (fired : s.events.fire () = some ev) :
    ∃ p rest, s.inflight = (s.events.now,p) :: rest ∧ ev.now = s.events.now ∧ ev.due () = [] := by
  obtain ⟨later,member,left,_⟩ := EventList.fire_spec fired
  rw [left]
  rw [pending] at member ⊢
  cases inflight : s.inflight with
  | nil => simp [inflight] at member
  | cons head rest =>
    obtain ⟨time,p⟩ := head
    have now : s.events.now = time := by simpa [inflight] using member
    exact ⟨p,rest,by rw [now],later,by simp [now]⟩

theorem initial_carried (delay : Nat) : Carried delay ({} : SimplePipe P) :=
  ⟨rfl,(fun _ member => by cases member),rfl,.nil,fun _ member => by cases member⟩

theorem step_carried (carried : Carried delay s)
    (pending : s.events.due () = (s.inflight.map Prod.fst).take 1) (busy : Busy delay l s)
    (taken : step delay l s = some t) :
    Carried delay t ∧ t.events.due () = (t.inflight.map Prod.fst).take 1 := by
  have front := carried.front
  unfold step at taken
  rw [if_neg (Bool.eq_false_iff.mp front)] at taken
  cases l with
  | tick d =>
    obtain ⟨ev,ticked,rfl⟩ := Option.map_eq_some_iff.mp taken
    exact ⟨carried.tick pending ticked,((EventList.tick_spec ticked).2.1 ()).trans pending⟩
  | receivePacket p =>
    cases taken
    have fits : s.events.now + delay < 2^64 := busy
    constructor
    · apply carried.grow [p]
      · simp only [receivePacket]; split <;> rfl
      · simp [receivePacket,u64_of_lt fits]
      · rfl
      · rfl
      · exact front
    · cases inflight : s.inflight with
      | nil => simp [receivePacket,inflight,pending,u64_of_lt fits]
      | cons head rest => simp [receivePacket,inflight,pending]
  | doNextEvent entered =>
    obtain ⟨ev,fired,rfl⟩ := Option.map_eq_some_iff.mp taken
    obtain ⟨more,fits⟩ := busy
    obtain ⟨p,rest,inflight,later,used⟩ := fire_front pending fired
    obtain ⟨next,rest,rfl⟩ : ∃ next later, rest = next :: later := by
      cases rest with
      | nil => simp [inflight] at more
      | cons next later => exact ⟨next,later,rfl⟩
    rw [doNextEvent_behind (s := { s with events := ev }) inflight]
    have popped : Carried delay { s with
        events := ev, inflight := next :: rest, delivered := s.delivered ++ [(ev.now,p)] } :=
      carried.pop later inflight rfl (by rw [later]) front
    constructor
    · refine popped.grow entered rfl ?_ rfl rfl front
      exact congrArg (next :: rest ++ ·) (map_entered (s := { s with events := ev }) (by rwa [later]))
    · simp [used]

/-- A step that leaves the last packet, or lets the time of an arrival wrap, does not. -/
theorem busy_of_delayLine (carried : Carried delay s)
    (pending : s.events.due () = (s.inflight.map Prod.fst).take 1)
    (taken : step delay l s = some t) (line : DelayLine delay t) : Busy delay l s := by
  have front := carried.front
  have old := carried.order
  have order := line.order
  unfold step at taken
  rw [if_neg (Bool.eq_false_iff.mp front)] at taken
  cases l with
  | tick d => trivial
  | receivePacket p =>
    cases taken
    change s.events.now + delay < 2^64
    have same : u64 (s.events.now + delay) = s.events.now + delay := by
      simpa [receivePacket,← List.append_assoc,old] using order
    exact same ▸ Nat.mod_lt _ (by decide)
  | doNextEvent entered =>
    obtain ⟨ev,fired,rfl⟩ := Option.map_eq_some_iff.mp taken
    obtain ⟨p,rest,inflight,later,used⟩ := fire_front pending fired
    cases rest with
    | nil =>
      exfalso
      cases entered with
      | nil =>
        have read := line.front
        simp [doNextEvent,inflight] at read
      | cons q behind =>
        have armed := line.pending
        simp only [doNextEvent,inflight,List.foldl_cons] at armed
        rw [foldl_receivePacket (by simp [receivePacket])] at armed
        simp [receivePacket,used] at armed
    | cons next rest =>
      refine ⟨by simp [inflight],?_⟩
      rw [doNextEvent_behind (s := { s with events := ev }) inflight] at order
      cases entered with
      | nil => exact Or.inl rfl
      | cons q behind =>
        right
        have stored : u64 (s.events.now + delay) = s.events.now + delay ∧
            ∀ q ∈ behind, u64 (s.events.now + delay) = s.events.now + delay := by
          rw [inflight] at old
          simp only [List.map_append,← old,later] at order
          simpa using order
        exact stored.1 ▸ Nat.mod_lt _ (by decide)

/-- While every packet that leaves has another one behind it, the pipe is a delay line; a step at
which the last packet leaves ends that. -/
theorem pipe_delays (delay : Nat) (s : SimplePipe P)
    (run : Runs.Run (step delay) (Busy delay) {} s) :
    DelayLine delay s ∧
      ∀ l t, step delay l s = some t → (DelayLine delay t ↔ Busy delay l s) := by
  have kept (l : PipeStep P) (s t : SimplePipe P)
      (before : Carried delay s ∧ s.events.due () = (s.inflight.map Prod.fst).take 1)
      (busy : Busy delay l s) (taken : step delay l s = some t) :
      Carried delay t ∧ t.events.due () = (t.inflight.map Prod.fst).take 1 :=
    step_carried before.1 before.2 busy taken
  obtain ⟨carried,pending⟩ := run.invariant kept ⟨initial_carried delay,rfl⟩
  refine ⟨.of_carried carried pending,fun l t taken => ⟨busy_of_delayLine carried pending taken,
    fun busy => ?_⟩⟩
  obtain ⟨after,armed⟩ := step_carried carried pending busy taken
  exact .of_carried after armed

theorem pipe_delays_two_packets : ∃ s : SimplePipe Nat,
    Runs.Run (step 5) (Busy 5) {} s ∧ s.delivered = [(5,0)] ∧ DelayLine 5 s := by
  have ends : (Runs.exec (step 5) (Busy 5)
      [.receivePacket 0,.tick 2,.receivePacket 1,.tick 3,.doNextEvent []]
      ({} : SimplePipe Nat)).map SimplePipe.delivered = some [(5,0)] := by decide
  obtain ⟨s,run,delivered⟩ := Runs.exists_run_of_exec ends
  exact ⟨s,run,delivered,(pipe_delays 5 s run).1⟩

/-- A packet alone in the pipe. -/
theorem last_packet_reads_empty_front : ∃ s : SimplePipe Nat,
    Runs.Run (step 5) Runs.anyStep {} s ∧ s.delivered = [(5,0)] ∧ s.inflight = [] ∧
      s.frontOfEmpty = true ∧ ¬DelayLine 5 s := by
  have ends : (Runs.exec (step 5) Runs.anyStep [.receivePacket 0,.tick 5,.doNextEvent []]
      ({} : SimplePipe Nat)).map (fun s => (s.delivered,s.inflight,s.frontOfEmpty)) =
      some ([(5,0)],[],true) := by decide
  obtain ⟨s,run,seen⟩ := Runs.exists_run_of_exec ends
  obtain ⟨delivered,inflight,read⟩ : s.delivered = [(5,0)] ∧ s.inflight = [] ∧
      s.frontOfEmpty = true := by simpa using seen
  exact ⟨s,run,delivered,inflight,read,fun line => Bool.false_ne_true (line.front.symm.trans read)⟩

end SimplePipe
end CloudSim
