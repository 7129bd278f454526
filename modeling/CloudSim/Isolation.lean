import CloudSim.Mealy
import CloudSim.Switch
import CloudSim.Worker

/-! Which tensors share state. The maps of a switch and of a worker are declared with
32-bit keys and indexed by the 64-bit `Tensor::key`, so two tensors are kept apart
exactly when their keys differ in the low 32 bits. -/
namespace CloudSim.Isolation

inductive SwitchEvent where
  | receive (p : Packet)
  | clean (r : TensorRef)

def SwitchEvent.tensor : SwitchEvent → TensorRef
  | .receive p => p.tensor
  | .clean r => r

/-- The answer holds the packets sent and whether the `assert(false)` branch was taken. -/
def switchStep (cfg : Config) (sw : Switch) : SwitchEvent → Switch × List Hop × Bool
  | .receive p => let r := sw.receivePacket cfg p; (r.switch,r.sent,r.shadow)
  | .clean r => (sw.clean (u32 (r.key cfg)),[],false)

/-- A delivery to a worker, with the objects it finds behind the packet's pointers. -/
structure Arrival where
  objects : Objects
  packet : Packet

def workerStep (cfg : Config) (w : Worker) (a : Arrival) : Worker × List Hop × Bool :=
  let r := w.receivePacket cfg a.objects a.packet; (r.worker,r.sent,r.released)

/-- No entry of any tensor yet; the jobs' aggregation trees are arbitrary. -/
def FreshSwitch (sw : Switch) : Prop :=
  sw.countForTensorKey = default ∧ sw.seenForTensorKey = default

def FreshWorker (w : Worker) : Prop := w.receivedPkts = default

def ofKey (cfg : Config) (r other : TensorRef) : Bool := other.key cfg == r.key cfg

/-- Isolation of a set of tensors, in every reachable state of a switch and a worker:
a packet of one leaves the entries of the others alone, and what is sent for one is
what would be sent without the traffic of the others. -/
structure Isolated (cfg : Config) (tensors : Set TensorRef) : Prop where
  switchEntries : ∀ sw, FreshSwitch sw → ∀ events : List SwitchEvent,
    (∀ e ∈ events, e.tensor ∈ tensors) → ∀ p : Packet, p.tensor ∈ tensors → ∀ r ∈ tensors,
    p.tensor.key cfg ≠ r.key cfg →
    let s := Mealy.after (switchStep cfg) sw events
    (s.receivePacket cfg p).switch.seenForTensorKey (u32 (r.key cfg)) =
        s.seenForTensorKey (u32 (r.key cfg)) ∧
      (s.receivePacket cfg p).switch.countForTensorKey (u32 (r.key cfg)) =
        s.countForTensorKey (u32 (r.key cfg))
  workerEntries : ∀ w, FreshWorker w → ∀ arrivals : List Arrival,
    (∀ a ∈ arrivals, a.packet.tensor ∈ tensors) → ∀ a : Arrival, a.packet.tensor ∈ tensors →
    ∀ r ∈ tensors, a.packet.tensor.key cfg ≠ r.key cfg →
    let s := Mealy.after (workerStep cfg) w arrivals
    (s.receivePacket cfg a.objects a.packet).worker.receivedPkts (u32 (r.key cfg)) =
      s.receivedPkts (u32 (r.key cfg))
  switchTraffic : ∀ sw, FreshSwitch sw → ∀ events : List SwitchEvent,
    (∀ e ∈ events, e.tensor ∈ tensors) → ∀ r ∈ tensors,
    (Mealy.answers (switchStep cfg) sw events).filter (fun a => ofKey cfg r a.1.tensor) =
      Mealy.answers (switchStep cfg) sw (events.filter fun e => ofKey cfg r e.tensor)
  workerTraffic : ∀ w, FreshWorker w → ∀ arrivals : List Arrival,
    (∀ a ∈ arrivals, a.packet.tensor ∈ tensors) → ∀ r ∈ tensors,
    (Mealy.answers (workerStep cfg) w arrivals).filter (fun a => ofKey cfg r a.1.packet.tensor) =
      Mealy.answers (workerStep cfg) w (arrivals.filter fun a => ofKey cfg r a.packet.tensor)

/-- Distinct keys stay distinct when they are cut to 32 bits. -/
def DistinctCut (cfg : Config) (tensors : Set TensorRef) : Prop :=
  ∀ r ∈ tensors, ∀ q ∈ tensors, r.key cfg ≠ q.key cfg → u32 (r.key cfg) ≠ u32 (q.key cfg)

/-! A packet touches the entries of its own cut key only. -/

theorem switch_seen_frame (cfg : Config) (sw : Switch) (p : Packet)
    (other : tkey ≠ u32 (p.tensor.key cfg)) :
    (sw.receivePacket cfg p).switch.seenForTensorKey tkey = sw.seenForTensorKey tkey := by
  simp only [Switch.receivePacket,Switch.contribute]
  split
  · split
    · rfl
    · split <;> [skip; split] <;> simp [Switch.setCount,Switch.mark,Switch.setSeen,other]
  · rfl

theorem switch_count_frame (cfg : Config) (sw : Switch) (p : Packet)
    (other : tkey ≠ u32 (p.tensor.key cfg)) :
    (sw.receivePacket cfg p).switch.countForTensorKey tkey = sw.countForTensorKey tkey := by
  simp only [Switch.receivePacket,Switch.contribute]
  split
  · split
    · simp [Switch.touchCount,other]
    · split <;> [skip; split] <;> simp [Switch.setCount,Switch.mark,Switch.setSeen,other]
  · simp [Switch.setCount,other]

theorem worker_received_frame (cfg : Config) (objs : Objects) (w : Worker) (p : Packet)
    (other : tkey ≠ u32 (p.tensor.key cfg)) :
    (w.receivePacket cfg objs p).worker.receivedPkts tkey = w.receivedPkts tkey := by
  simp only [Worker.receivePacket]
  split
  · simp [Worker.setReceived,other]
  · split
    · simp [Worker.clearReceived,other]
    · split <;> simp [Worker.setReceived,other]

/-- Everything that `receivePacket` reads when it is handed a packet with cut key `tkey`. -/
structure SwitchView where
  id : Nat
  layer : Nat
  downward : Table Nat (List Nat)
  numUpdates : Table Nat Nat
  topLevel : Table Nat Bool
  counts : Option (Table SlotKey Nat)
  seen : Option (Table SlotKey (Finset Nat))

def switchView (tkey : Nat) (sw : Switch) : SwitchView :=
  ⟨sw.id,sw.layer,sw.downwardIdsForJob,sw.numUpdatesForJob,sw.topLevelForJob,
    sw.countForTensorKey tkey,sw.seenForTensorKey tkey⟩

theorem get_of_entry [Inhabited V] {m n : Table K V} (same : m k = n k) : m.get k = n.get k := by
  simp only [Table.get,same]

theorem receive_view (cfg : Config) (p : Packet) (s t : Switch)
    (same : switchView (u32 (p.tensor.key cfg)) s = switchView (u32 (p.tensor.key cfg)) t) :
    switchView (u32 (p.tensor.key cfg)) (s.receivePacket cfg p).switch =
        switchView (u32 (p.tensor.key cfg)) (t.receivePacket cfg p).switch ∧
      (s.receivePacket cfg p).sent = (t.receivePacket cfg p).sent ∧
      (s.receivePacket cfg p).shadow = (t.receivePacket cfg p).shadow := by
  simp only [switchView,SwitchView.mk.injEq] at same
  obtain ⟨ids,layers,downward,updates,top,counts,seen⟩ := same
  have countsAt := get_of_entry counts
  have seenTableAt := get_of_entry seen
  have seenAt (key : SlotKey) : s.seen (u32 (p.tensor.key cfg)) key =
      t.seen (u32 (p.tensor.key cfg)) key := by simp only [Switch.seen,seenTableAt]
  have countedAt : s.counted (u32 (p.tensor.key cfg)) p = t.counted (u32 (p.tensor.key cfg)) p := by
    simp only [Switch.counted,Switch.count,countsAt,updates]
  by_cases upward : p.upward = true
  · by_cases again : p.id ∈ t.seen (u32 (p.tensor.key cfg)) (p.slot,p.ver)
    · rw [Switch.receive_shadow cfg s p upward (seenAt _ ▸ again),
        Switch.receive_shadow cfg t p upward again]
      simp [switchView,Switch.touchCount,ids,layers,downward,updates,top,countsAt,seen]
    · have fresh : p.id ∉ s.seen (u32 (p.tensor.key cfg)) (p.slot,p.ver) := seenAt _ ▸ again
      by_cases done : t.counted (u32 (p.tensor.key cfg)) p = 0
      · cases root : t.topLevelForJob.get p.jobId with
        | true =>
          rw [Switch.receive_top cfg s p upward fresh (countedAt.trans done) (top ▸ root),
            Switch.receive_top cfg t p upward again done root]
          simp [switchView,Switch.mark,Switch.setCount,Switch.setSeen,Switch.multicastDownward,
            Switch.downwardNode,Switch.seen,ids,layers,downward,updates,top,countsAt,seenTableAt]
        | false =>
          rw [Switch.receive_up cfg s p upward fresh (countedAt.trans done) (top ▸ root),
            Switch.receive_up cfg t p upward again done root]
          simp [switchView,Switch.mark,Switch.setCount,Switch.setSeen,Switch.unicastUpward,
            Switch.seen,ids,layers,downward,updates,top,countsAt,seenTableAt]
      · rw [Switch.receive_partial cfg s p upward fresh (countedAt ▸ done),
          Switch.receive_partial cfg t p upward again done]
        simp [switchView,Switch.mark,Switch.setCount,Switch.setSeen,Switch.seen,
          ids,layers,downward,updates,top,countsAt,countedAt,seenTableAt]
  · have down : p.upward = false := Bool.eq_false_iff.mpr upward
    rw [Switch.receive_down cfg s p down,Switch.receive_down cfg t p down]
    simp [switchView,Switch.setCount,Switch.multicastDownward,Switch.downwardNode,
      ids,layers,downward,updates,top,countsAt,seen]

theorem worker_receive_view (cfg : Config) (objs : Objects) (p : Packet) (s t : Worker)
    (ids : s.id = t.id) (tors : s.tor = t.tor)
    (entry : s.receivedPkts (u32 (p.tensor.key cfg)) = t.receivedPkts (u32 (p.tensor.key cfg))) :
    (s.receivePacket cfg objs p).worker.receivedPkts (u32 (p.tensor.key cfg)) =
        (t.receivePacket cfg objs p).worker.receivedPkts (u32 (p.tensor.key cfg)) ∧
      (s.receivePacket cfg objs p).sent = (t.receivePacket cfg objs p).sent ∧
      (s.receivePacket cfg objs p).released = (t.receivePacket cfg objs p).released := by
  have receivedAt : s.received (u32 (p.tensor.key cfg)) = t.received (u32 (p.tensor.key cfg)) :=
    get_of_entry entry
  by_cases again : p.offset ∈ t.received (u32 (p.tensor.key cfg))
  · rw [Worker.receive_duplicate cfg objs s p (receivedAt ▸ again),
      Worker.receive_duplicate cfg objs t p again]
    simp [Worker.setReceived,receivedAt]
  have fresh : p.offset ∉ s.received (u32 (p.tensor.key cfg)) := receivedAt ▸ again
  by_cases full : (insert p.offset (t.received (u32 (p.tensor.key cfg)))).card =
      (objs.tensor p.tensor).numPktsExpected
  · rw [Worker.receive_last cfg objs s p fresh (receivedAt ▸ full),
      Worker.receive_last cfg objs t p again full]
    simp [Worker.clearReceived]
  by_cases past : p.gradSize ≤ Worker.nextStart cfg p.offset
  · rw [Worker.receive_stop cfg objs s p fresh (receivedAt ▸ full) past,
      Worker.receive_stop cfg objs t p again full past]
    simp [Worker.setReceived,receivedAt]
  · have within := Nat.not_le.mp past
    rw [Worker.receive_next cfg objs s p fresh (receivedAt ▸ full) within,
      Worker.receive_next cfg objs t p again full within]
    simp [Worker.setReceived,Worker.sendPacket,receivedAt,ids,tors]

theorem switch_config (cfg : Config) (sw : Switch) (p : Packet) :
    (sw.receivePacket cfg p).switch.id = sw.id ∧
    (sw.receivePacket cfg p).switch.layer = sw.layer ∧
    (sw.receivePacket cfg p).switch.downwardIdsForJob = sw.downwardIdsForJob ∧
    (sw.receivePacket cfg p).switch.numUpdatesForJob = sw.numUpdatesForJob ∧
    (sw.receivePacket cfg p).switch.topLevelForJob = sw.topLevelForJob := by
  simp only [Switch.receivePacket,Switch.contribute]
  split
  · split
    · exact ⟨rfl,rfl,rfl,rfl,rfl⟩
    · split <;> [skip; split] <;> exact ⟨rfl,rfl,rfl,rfl,rfl⟩
  · exact ⟨rfl,rfl,rfl,rfl,rfl⟩

theorem worker_config (cfg : Config) (objs : Objects) (w : Worker) (p : Packet) :
    (w.receivePacket cfg objs p).worker.id = w.id ∧
    (w.receivePacket cfg objs p).worker.tor = w.tor := by
  simp only [Worker.receivePacket]
  split <;> [skip; split <;> [skip; split]] <;> exact ⟨rfl,rfl⟩

theorem foreign_cut {cfg : Config} {tensors : Set TensorRef} (distinct : DistinctCut cfg tensors)
    (mine : r ∈ tensors) (member : q ∈ tensors) (foreign : ofKey cfg r q = false) :
    u32 (r.key cfg) ≠ u32 (q.key cfg) := by
  refine distinct r mine q member fun same => ?_
  simp [ofKey,same] at foreign

theorem switch_separated {cfg : Config} {tensors : Set TensorRef}
    (distinct : DistinctCut cfg tensors) (mine : r ∈ tensors) :
    Mealy.Separated (switchStep cfg) (fun e => e.tensor ∈ tensors)
      (fun e => ofKey cfg r e.tensor) (switchView (u32 (r.key cfg))) where
  frame := by
    intro sw e member foreign
    have other := foreign_cut distinct mine member foreign
    cases e with
    | receive p =>
      obtain ⟨ids,layers,downward,updates,top⟩ := switch_config cfg sw p
      simp only [switchStep,switchView,switch_seen_frame cfg sw p other,
        switch_count_frame cfg sw p other,ids,layers,downward,updates,top]
    | clean q =>
      change u32 (r.key cfg) ≠ u32 (q.key cfg) at other
      simp [switchStep,switchView,Switch.clean,other]
  next := by
    intro s t e own same
    have keys : e.tensor.key cfg = r.key cfg := by simpa [ofKey] using own
    rw [← keys] at same ⊢
    cases e with
    | receive p => exact (receive_view cfg p s t same).1
    | clean q =>
      simp only [switchView,SwitchView.mk.injEq] at same
      simp [switchStep,switchView,Switch.clean,SwitchEvent.tensor,same]
  answer := by
    intro s t e own same
    have keys : e.tensor.key cfg = r.key cfg := by simpa [ofKey] using own
    rw [← keys] at same
    cases e with
    | receive p =>
      obtain ⟨_,sent,shadow⟩ := receive_view cfg p s t same
      simp only [switchStep,sent,shadow]
    | clean q => rfl

theorem worker_separated {cfg : Config} {tensors : Set TensorRef}
    (distinct : DistinctCut cfg tensors) (mine : r ∈ tensors) :
    Mealy.Separated (workerStep cfg) (fun a => a.packet.tensor ∈ tensors)
      (fun a => ofKey cfg r a.packet.tensor)
      (fun w => (w.id,w.tor,w.receivedPkts (u32 (r.key cfg)))) where
  frame := by
    intro w a member foreign
    have other := foreign_cut distinct mine member foreign
    obtain ⟨ids,tors⟩ := worker_config cfg a.objects w a.packet
    simp only [workerStep,worker_received_frame cfg a.objects w a.packet other,ids,tors]
  next := by
    intro s t a own same
    have keys : a.packet.tensor.key cfg = r.key cfg := by simpa [ofKey] using own
    rw [← keys] at same ⊢
    simp only [Prod.mk.injEq] at same
    obtain ⟨entry,_⟩ := worker_receive_view cfg a.objects a.packet s t same.1 same.2.1 same.2.2
    simp only [workerStep,worker_config,entry,same]
  answer := by
    intro s t a own same
    have keys : a.packet.tensor.key cfg = r.key cfg := by simpa [ofKey] using own
    rw [← keys] at same
    simp only [Prod.mk.injEq] at same
    obtain ⟨_,sent,released⟩ :=
      worker_receive_view cfg a.objects a.packet s t same.1 same.2.1 same.2.2
    simp only [workerStep,sent,released]

theorem isolated_of_distinct {cfg : Config} {tensors : Set TensorRef}
    (distinct : DistinctCut cfg tensors) : Isolated cfg tensors where
  switchEntries := by
    intro sw _ events _ p member r mine different
    have other := distinct r mine p.tensor member different.symm
    exact ⟨switch_seen_frame cfg _ p other,switch_count_frame cfg _ p other⟩
  workerEntries := by
    intro w _ arrivals _ a member r mine different
    exact worker_received_frame cfg a.objects _ a.packet
      (distinct r mine a.packet.tensor member different.symm)
  switchTraffic := by
    intro sw _ events members r mine
    exact Mealy.answers_filter (switch_separated distinct mine) events members sw sw rfl
  workerTraffic := by
    intro w _ arrivals members r mine
    exact Mealy.answers_filter (worker_separated distinct mine) arrivals members w w rfl

def resultPacket (r : TensorRef) : Packet :=
  ⟨r.job,2,1,false,0,0,0,0,r⟩

def emptySwitch : Switch := { id := 0, layer := 0 }

/-- When the cut keys agree, a packet of one tensor creates the entry of the other. -/
theorem distinct_of_isolated {cfg : Config} {tensors : Set TensorRef}
    (isolated : Isolated cfg tensors) : DistinctCut cfg tensors := by
  intro r mine q member different cut
  have entries := (isolated.switchEntries emptySwitch ⟨rfl,rfl⟩ [] (by simp) (resultPacket q)
    member r mine different.symm).2
  have created := Switch.receive_down cfg emptySwitch (resultPacket q) rfl
  have none : emptySwitch.countForTensorKey (u32 (r.key cfg)) = none := rfl
  simp only [Mealy.after,created] at entries
  rw [none,cut] at entries
  simp [Switch.setCount,resultPacket] at entries

/-- Tensors are isolated from each other exactly when no two of them have different
64-bit keys that agree in the low 32 bits. -/
theorem isolated_iff_distinct_cut (cfg : Config) (tensors : Set TensorRef) :
    Isolated cfg tensors ↔ DistinctCut cfg tensors :=
  ⟨distinct_of_isolated,isolated_of_distinct⟩

/-- libstdc++ hashes `jid1895tid8` and `jid2838tid17` to these two keys. -/
def libstdcxxKeys : Config where
  numSlots := 512
  numUpdates := 256
  chunkSize := 262144
  getKey job _ := if job = 1895 then 9373683289465793696 else 6473167002597829792

theorem colliding_tensors_not_isolated :
    (⟨0,1895,8⟩ : TensorRef).key libstdcxxKeys ≠ (⟨0,2838,17⟩ : TensorRef).key libstdcxxKeys ∧
      ¬Isolated libstdcxxKeys {⟨0,1895,8⟩,⟨0,2838,17⟩} := by
  refine ⟨by decide,fun isolated => ?_⟩
  exact distinct_of_isolated isolated ⟨0,1895,8⟩ (by simp) ⟨0,2838,17⟩ (by simp) (by decide)
    (by decide)

end CloudSim.Isolation
