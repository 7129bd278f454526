import CloudSim.Packet

/-! The data plane of a worker: it sends the first packet of every slot, answers each
result with the slot's next packet, and releases its allreduce lock at the last one. -/
namespace CloudSim

/-- The objects that a packet's pointers lead to. -/
structure Objects where
  tensor : TensorRef → Tensor
  numWorkersAllocated : Nat → Nat
  modelSize : Nat → Nat

structure Worker where
  id : Nat
  tor : Nat
  cleanToRForJob : Table Nat Bool := default
  receivedPkts : Table Nat (Finset Nat) := default
  allreduceCounter : Table Nat Nat := default

namespace Worker

def sendPacket (objs : Objects) (w : Worker) (start ver slot gradSize : Nat)
    (tensor : TensorRef) : Hop :=
  ⟨.tor w.tor,
    { jobId := tensor.job, nWorkers := objs.numWorkersAllocated tensor.job,
      gradSize := u32 gradSize, upward := true, id := w.id, slot := slot, ver := ver,
      offset := start, tensor := tensor }⟩

/-- `released` marks the release of `allreduce_locks` after the last result. -/
structure Result where
  worker : Worker
  sent : List Hop
  released : Bool

/-- `p->offset + NUM_UPDATES * NUM_SLOTS` in `unsigned` arithmetic. -/
def nextStart (cfg : Config) (offset : Nat) : Nat :=
  u32 (offset + u32 (cfg.numUpdates * cfg.numSlots))

/-- The set of offsets received for a 32-bit key. -/
def received (w : Worker) (tkey : Nat) : Finset Nat := w.receivedPkts.get tkey

def setReceived (w : Worker) (tkey : Nat) (offsets : Finset Nat) : Worker :=
  { w with receivedPkts := w.receivedPkts.put tkey offsets }

def clearReceived (w : Worker) (tkey : Nat) : Worker :=
  { w with receivedPkts := w.receivedPkts.erase tkey }

def receivePacket (cfg : Config) (objs : Objects) (w : Worker) (p : Packet) : Result :=
  let tkey := u32 (p.tensor.key cfg)
  let set := w.received tkey
  if p.offset ∈ set then
    ⟨w.setReceived tkey set,[],false⟩
  else
    let set := insert p.offset set
    if set.card = (objs.tensor p.tensor).numPktsExpected then
      ⟨w.clearReceived tkey,[],true⟩
    else
      let w := w.setReceived tkey set
      if p.gradSize ≤ nextStart cfg p.offset then ⟨w,[],false⟩
      else
        ⟨w,[w.sendPacket objs (nextStart cfg p.offset) (sub32 1 p.ver) p.slot p.gradSize p.tensor],
          false⟩

section received
variable (w : Worker) (tkey : Nat) (offsets : Finset Nat)

@[simp] theorem received_setReceived : (w.setReceived tkey offsets).received tkey = offsets := by
  simp [received,setReceived]

@[simp] theorem received_clearReceived : (w.clearReceived tkey).received tkey = ∅ := by
  simp [received,clearReceived]
  rfl

end received

/-- The fields that only placement writes. -/
def config (w : Worker) : Worker := { w with receivedPkts := default, allreduceCounter := default }

theorem config_receivePacket (cfg : Config) (objs : Objects) (w : Worker) (p : Packet) :
    (w.receivePacket cfg objs p).worker.config = w.config := by
  simp only [receivePacket]
  split <;> [skip; split <;> [skip; split]] <;> rfl

/-! One equation for each way through `receivePacket`. -/

section receivePacket
variable (cfg : Config) (objs : Objects) (w : Worker) (p : Packet)

theorem receive_duplicate (duplicate : p.offset ∈ w.received (u32 (p.tensor.key cfg))) :
    w.receivePacket cfg objs p =
      ⟨w.setReceived (u32 (p.tensor.key cfg)) (w.received (u32 (p.tensor.key cfg))),[],false⟩ := by
  simp only [receivePacket,if_pos duplicate]

theorem receive_last (fresh : p.offset ∉ w.received (u32 (p.tensor.key cfg)))
    (full : (insert p.offset (w.received (u32 (p.tensor.key cfg)))).card =
      (objs.tensor p.tensor).numPktsExpected) :
    w.receivePacket cfg objs p =
      ⟨w.clearReceived (u32 (p.tensor.key cfg)),[],true⟩ := by
  simp only [receivePacket,if_neg fresh,if_pos full]

theorem receive_stop (fresh : p.offset ∉ w.received (u32 (p.tensor.key cfg)))
    (more : (insert p.offset (w.received (u32 (p.tensor.key cfg)))).card ≠
      (objs.tensor p.tensor).numPktsExpected)
    (past : p.gradSize ≤ nextStart cfg p.offset) :
    w.receivePacket cfg objs p =
      ⟨w.setReceived (u32 (p.tensor.key cfg))
          (insert p.offset (w.received (u32 (p.tensor.key cfg)))),[],false⟩ := by
  simp only [receivePacket,if_neg fresh,if_neg more,if_pos past]

theorem receive_next (fresh : p.offset ∉ w.received (u32 (p.tensor.key cfg)))
    (more : (insert p.offset (w.received (u32 (p.tensor.key cfg)))).card ≠
      (objs.tensor p.tensor).numPktsExpected)
    (within : nextStart cfg p.offset < p.gradSize) :
    w.receivePacket cfg objs p =
      ⟨w.setReceived (u32 (p.tensor.key cfg))
          (insert p.offset (w.received (u32 (p.tensor.key cfg)))),
        [w.sendPacket objs (nextStart cfg p.offset) (sub32 1 p.ver) p.slot p.gradSize p.tensor],
        false⟩ := by
  simp only [receivePacket,if_neg fresh,if_neg more,if_neg (Nat.not_le.mpr within)]
  rfl

end receivePacket

/-- The size that one call of `allreduce` reduces; a chunk size of 0 stands for the
whole tensor. -/
def allreduceSize (chunkSize : Nat) (t : Tensor) : Nat :=
  if chunkSize = 0 then t.size else min (sub64 t.size t.allreducedSize) chunkSize

def pktsExpected (cfg : Config) (gradSize : Nat) : Nat :=
  let whole := u32 (gradSize / cfg.numUpdates)
  if gradSize % cfg.numUpdates ≠ 0 then u32 (whole + 1) else whole

/-- The sending loop of `allreduce`, which breaks at the first slot past the gradient. -/
def initialPackets (cfg : Config) (objs : Objects) (w : Worker) (gradSize : Nat)
    (tensor : TensorRef) : List Hop :=
  ((List.range cfg.numSlots).takeWhile fun slot => u32 (slot * cfg.numUpdates) < gradSize).map
    fun slot => w.sendPacket objs (u32 (slot * cfg.numUpdates)) 0 slot gradSize tensor

/-- What `allreduce` does to the tensor after its second lock request is granted. -/
def advanceTensor (t : Tensor) (gradSize : Nat) : Tensor :=
  let total := u64 (t.allreducedSize + gradSize)
  if t.size ≤ total then { t with iter := u32 (t.iter + 1), allreducedSize := 0, chunkId := 0 }
  else { t with allreducedSize := total, chunkId := u64 (t.chunkId + 1) }

theorem advanceTensor_whole (whole : t.size ≤ u64 (t.allreducedSize + gradSize)) :
    advanceTensor t gradSize =
      { t with iter := u32 (t.iter + 1), allreducedSize := 0, chunkId := 0 } := by
  simp only [advanceTensor,if_pos whole]

theorem advanceTensor_part (rest : ¬t.size ≤ u64 (t.allreducedSize + gradSize)) :
    advanceTensor t gradSize =
      { t with
        allreducedSize := u64 (t.allreducedSize + gradSize), chunkId := u64 (t.chunkId + 1) } := by
  simp only [advanceTensor,if_neg rest]

/-- The end-of-iteration counter, indexed by the parity of the tensor's iteration. -/
def countAllreduce (w : Worker) (iter modelSize : Nat) : Worker × Bool :=
  let counter := w.allreduceCounter
  let counter := counter.put (iter % 2) (u32 (counter.get (iter % 2) + 1))
  if counter.get (iter % 2) = modelSize then
    ({ w with allreduceCounter := counter.put (1 - iter % 2) 0 },true)
  else ({ w with allreduceCounter := counter },false)

end Worker
end CloudSim
