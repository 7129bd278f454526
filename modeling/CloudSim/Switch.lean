import CloudSim.Packet

/-! A switch aggregates one contribution per child and slot version, then sends the
result to its children or hands one contribution to the level above. -/
namespace CloudSim

/-- A slot and a version, the `s{}v{}` string of the source. -/
abbrev SlotKey := Nat × Nat

structure Switch where
  id : Nat
  layer : Nat
  upperLevelSwitch : Option Nat := none
  cleanUpperLevelSwitchForJob : Table Nat Bool := default
  downwardIdsForJob : Table Nat (List Nat) := default
  numUpdatesForJob : Table Nat Nat := default
  topLevelForJob : Table Nat Bool := default
  countForTensorKey : Table Nat (Table SlotKey Nat) := default
  seenForTensorKey : Table Nat (Table SlotKey (Finset Nat)) := default

namespace Switch

/-- `tkey` is a key of the outer maps, which are declared with 32-bit keys. -/
def seen (sw : Switch) (tkey : Nat) (key : SlotKey) : Finset Nat :=
  (sw.seenForTensorKey.get tkey).get key

def count (sw : Switch) (tkey : Nat) (key : SlotKey) : Nat :=
  (sw.countForTensorKey.get tkey).get key

def setCount (sw : Switch) (tkey : Nat) (key : SlotKey) (value : Nat) : Switch :=
  { sw with countForTensorKey :=
      sw.countForTensorKey.put tkey ((sw.countForTensorKey.get tkey).put key value) }

/-- The reference taken before the `seen` test creates the entry. -/
def touchCount (sw : Switch) (tkey : Nat) : Switch :=
  { sw with countForTensorKey := sw.countForTensorKey.put tkey (sw.countForTensorKey.get tkey) }

def setSeen (sw : Switch) (tkey : Nat) (key : SlotKey) (ids : Finset Nat) : Switch :=
  { sw with seenForTensorKey :=
      sw.seenForTensorKey.put tkey ((sw.seenForTensorKey.get tkey).put key ids) }

/-- `get_switch_single_hop_route` downward: the core reaches ToRs, a ToR reaches workers. -/
def downwardNode (sw : Switch) (dest : Nat) : Node :=
  if sw.layer = 1 then .tor dest else .worker dest

def multicastDownward (sw : Switch) (p : Packet) : List Hop :=
  (sw.downwardIdsForJob.get p.jobId).map fun dest =>
    ⟨sw.downwardNode dest,{ p with id := sw.id, upward := false }⟩

def unicastUpward (sw : Switch) (p : Packet) : Hop :=
  ⟨.core,{ p with id := sw.id, upward := true }⟩

/-- `((count[key] + 1) % n_workers) % num_updates` in `unsigned` arithmetic. -/
def nextCount (count nWorkers numUpdates : Nat) : Nat :=
  u32 (count + 1) % nWorkers % numUpdates

/-- What one call leaves behind; `shadow` marks the `assert(false)` branch, which only
frees the packet when assertions are compiled out. -/
structure Result where
  switch : Switch
  sent : List Hop
  shadow : Bool

/-- Clears the two entries of a tensor, as the tail of `Worker::allreduce` does. -/
def clean (sw : Switch) (tkey : Nat) : Switch :=
  { sw with
    countForTensorKey := sw.countForTensorKey.erase tkey
    seenForTensorKey := sw.seenForTensorKey.erase tkey }

/-- The contribution recorded in `seen`, before the counter moves. -/
def mark (sw : Switch) (tkey : Nat) (p : Packet) : Switch :=
  let marked := sw.setSeen tkey (p.slot,p.ver) (insert p.id (sw.seen tkey (p.slot,p.ver)))
  marked.setSeen tkey (p.slot,sub32 1 p.ver)
    ((marked.seen tkey (p.slot,sub32 1 p.ver)).erase p.id)

def counted (sw : Switch) (tkey : Nat) (p : Packet) : Nat :=
  nextCount (sw.count tkey (p.slot,p.ver)) p.nWorkers (sw.numUpdatesForJob.get p.jobId)

/-- The upward branch for a child that has not been seen under this version. -/
def contribute (sw : Switch) (tkey : Nat) (p : Packet) : Result :=
  let key := (p.slot,p.ver)
  let counted := sw.counted tkey p
  if counted ≠ 0 then
    ⟨(sw.mark tkey p).setCount tkey key counted,[],false⟩
  else if sw.topLevelForJob.get p.jobId then
    ⟨(sw.mark tkey p).setCount tkey key p.nWorkers,sw.multicastDownward p,false⟩
  else
    ⟨(sw.mark tkey p).setCount tkey key 0,[sw.unicastUpward p],false⟩

def receivePacket (cfg : Config) (sw : Switch) (p : Packet) : Result :=
  let tkey := u32 (p.tensor.key cfg)
  if p.upward then
    if p.id ∈ sw.seen tkey (p.slot,p.ver) then
      ⟨sw.touchCount tkey,[],true⟩
    else
      sw.contribute tkey p
  else
    ⟨sw.setCount tkey (p.slot,p.ver) p.nWorkers,sw.multicastDownward p,false⟩

section entries
variable (sw : Switch) (tkey : Nat) (key : SlotKey)

theorem count_setCount (value i : Nat) (j : SlotKey) :
    (sw.setCount tkey key value).count i j =
      if i = tkey ∧ j = key then value else sw.count i j := by
  by_cases here : i = tkey
  · subst here
    by_cases same : j = key <;> simp [setCount,count,same]
  · simp [setCount,count,here]

@[simp] theorem seen_setCount (value i : Nat) (j : SlotKey) :
    (sw.setCount tkey key value).seen i j = sw.seen i j := rfl

theorem seen_setSeen (ids : Finset Nat) (i : Nat) (j : SlotKey) :
    (sw.setSeen tkey key ids).seen i j = if i = tkey ∧ j = key then ids else sw.seen i j := by
  by_cases here : i = tkey
  · subst here
    by_cases same : j = key <;> simp [setSeen,seen,same]
  · simp [setSeen,seen,here]

@[simp] theorem count_setSeen (ids : Finset Nat) (i : Nat) (j : SlotKey) :
    (sw.setSeen tkey key ids).count i j = sw.count i j := rfl

@[simp] theorem count_mark (p : Packet) (i : Nat) (j : SlotKey) :
    (sw.mark tkey p).count i j = sw.count i j := rfl

/-- A child is moved from the other version of the slot to this one. -/
theorem seen_mark (p : Packet) (versions : sub32 1 p.ver ≠ p.ver) (i : Nat) (j : SlotKey) :
    (sw.mark tkey p).seen i j =
      if i = tkey ∧ j = (p.slot,p.ver) then insert p.id (sw.seen i j)
      else if i = tkey ∧ j = (p.slot,sub32 1 p.ver) then (sw.seen i j).erase p.id
      else sw.seen i j := by
  have apart : ((p.slot,p.ver) : SlotKey) ≠ (p.slot,sub32 1 p.ver) :=
    fun same => versions (Prod.mk.inj same).2.symm
  simp only [mark,seen_setSeen]
  by_cases here : i = tkey
  · subst here
    by_cases same : j = (p.slot,p.ver)
    · subst same; simp [apart]
    · by_cases other : j = (p.slot,sub32 1 p.ver)
      · subst other; simp [apart.symm]
      · simp [same,other]
  · simp [here]

@[simp] theorem count_touchCount (i : Nat) (j : SlotKey) :
    (sw.touchCount tkey).count i j = sw.count i j := by
  by_cases here : i = tkey
  · subst here; simp [touchCount,count]
  · simp [touchCount,count,here]

@[simp] theorem count_clean (i : Nat) (j : SlotKey) :
    (sw.clean tkey).count i j = if i = tkey then 0 else sw.count i j := by
  by_cases here : i = tkey
  · subst here; simp [clean,count]
  · simp [clean,count,here]

@[simp] theorem seen_clean (i : Nat) (j : SlotKey) :
    (sw.clean tkey).seen i j = if i = tkey then ∅ else sw.seen i j := by
  by_cases here : i = tkey
  · subst here; simp [clean,seen]; rfl
  · simp [clean,seen,here]

end entries

/-- The fields that only placement writes. -/
def config (sw : Switch) : Switch :=
  { sw with countForTensorKey := default, seenForTensorKey := default }

theorem config_receivePacket (cfg : Config) (sw : Switch) (p : Packet) :
    (sw.receivePacket cfg p).switch.config = sw.config := by
  simp only [receivePacket,contribute]
  split
  · split
    · rfl
    · split <;> [skip; split] <;> rfl
  · rfl

theorem config_clean (sw : Switch) (tkey : Nat) : (sw.clean tkey).config = sw.config := rfl

/-! One equation for each way through `receivePacket`. -/

section receivePacket
variable (cfg : Config) (sw : Switch) (p : Packet)

theorem receive_shadow (upward : p.upward = true)
    (again : p.id ∈ sw.seen (u32 (p.tensor.key cfg)) (p.slot,p.ver)) :
    sw.receivePacket cfg p =
      ⟨sw.touchCount (u32 (p.tensor.key cfg)),[],true⟩ := by
  simp only [receivePacket,upward,if_pos again,if_true]

theorem receive_partial (upward : p.upward = true)
    (fresh : p.id ∉ sw.seen (u32 (p.tensor.key cfg)) (p.slot,p.ver))
    (more : sw.counted (u32 (p.tensor.key cfg)) p ≠ 0) :
    sw.receivePacket cfg p =
      ⟨(sw.mark (u32 (p.tensor.key cfg)) p).setCount (u32 (p.tensor.key cfg)) (p.slot,p.ver)
          (sw.counted (u32 (p.tensor.key cfg)) p),[],false⟩ := by
  simp only [receivePacket,upward,if_neg fresh,if_true,contribute,if_pos more]

theorem receive_top (upward : p.upward = true)
    (fresh : p.id ∉ sw.seen (u32 (p.tensor.key cfg)) (p.slot,p.ver))
    (done : sw.counted (u32 (p.tensor.key cfg)) p = 0)
    (top : sw.topLevelForJob.get p.jobId = true) :
    sw.receivePacket cfg p =
      ⟨(sw.mark (u32 (p.tensor.key cfg)) p).setCount (u32 (p.tensor.key cfg)) (p.slot,p.ver)
          p.nWorkers,sw.multicastDownward p,false⟩ := by
  simp only [receivePacket,upward,if_neg fresh,if_true,contribute,done,ne_eq,not_true,if_false,top]

theorem receive_up (upward : p.upward = true)
    (fresh : p.id ∉ sw.seen (u32 (p.tensor.key cfg)) (p.slot,p.ver))
    (done : sw.counted (u32 (p.tensor.key cfg)) p = 0)
    (inner : sw.topLevelForJob.get p.jobId = false) :
    sw.receivePacket cfg p =
      ⟨(sw.mark (u32 (p.tensor.key cfg)) p).setCount (u32 (p.tensor.key cfg)) (p.slot,p.ver) 0,
        [sw.unicastUpward p],false⟩ := by
  simp only [receivePacket,upward,if_neg fresh,if_true,contribute,done,ne_eq,not_true,if_false,
    inner,Bool.false_eq_true]

theorem receive_down (downward : p.upward = false) :
    sw.receivePacket cfg p =
      ⟨sw.setCount (u32 (p.tensor.key cfg)) (p.slot,p.ver) p.nWorkers,sw.multicastDownward p,
        false⟩ := by
  simp only [receivePacket,downward,Bool.false_eq_true,if_false]

theorem receive_frame (other : ¬(tkey = u32 (p.tensor.key cfg) ∧ i = p.slot)) (v : Nat) :
    (sw.receivePacket cfg p).switch.count tkey (i,v) = sw.count tkey (i,v) ∧
      (sw.receivePacket cfg p).switch.seen tkey (i,v) = sw.seen tkey (i,v) := by
  have apart (u : Nat) : ¬(tkey = u32 (p.tensor.key cfg) ∧ (i,v) = (p.slot,u)) :=
    fun same => other ⟨same.1,(Prod.mk.inj same.2).1⟩
  simp only [receivePacket,contribute]
  split
  · split
    · exact ⟨count_touchCount ..,rfl⟩
    · split <;> [skip; split] <;>
        simp only [count_setCount,seen_setCount,mark,count_setSeen,seen_setSeen,apart,if_false,
          and_self]
  · exact ⟨by rw [count_setCount,if_neg (apart _)],rfl⟩

end receivePacket
end Switch
end CloudSim
