import CloudSim.Runs
import CloudSim.Traffic

/-! The offsets that one worker sends in an unchunked allreduce, for gradients of any 64-bit size
and with the 32-bit arithmetic of the sending loop and of `receivePacket`. -/
namespace CloudSim

/-- The multiples of `NUM_UPDATES` below a size. -/
def Config.offsets (cfg : Config) (gradSize : Nat) : List Nat :=
  (List.range (cfg.pkts gradSize)).map (· * cfg.numUpdates)

/-- No wrap-around changes which offsets are sent: the offsets fit into 32 bits, the size does if
it is read from a packet, the first start past the gradient ends the sending loop, and no start
computed from an offset of the last round is within the gradient. -/
structure Config.Covers (cfg : Config) (gradSize : Nat) : Prop where
  offsets : (cfg.pkts gradSize - 1) * cfg.numUpdates < 2^32
  size : cfg.numSlots < cfg.pkts gradSize → gradSize < 2^32
  loop : cfg.pkts gradSize < cfg.numSlots → gradSize ≤ u32 (cfg.pkts gradSize * cfg.numUpdates)
  next : 1 < cfg.pkts gradSize → 1 < cfg.numSlots → ∀ k < cfg.pkts gradSize,
    cfg.pkts gradSize ≤ k + cfg.numSlots →
    u32 gradSize ≤ Worker.nextStart cfg (k * cfg.numUpdates)

/-- A worker in one allreduce, with its packets whose results are missing. `sent`, `answered` and
`released` are history. -/
structure Exchange where
  worker : Worker
  unanswered : List Packet
  sent : List Nat
  answered : List Nat := []
  released : Nat := 0

namespace Exchange

/-- `allreduce` has set `num_pkts_expected`. -/
def objects (cfg : Config) (objs : Objects) (r : TensorRef) : Objects :=
  let gradSize := Worker.allreduceSize 0 (objs.tensor r)
  { objs with
    tensor := Function.update objs.tensor r
      { objs.tensor r with numPktsExpected := Worker.pktsExpected cfg gradSize } }

/-- The worker after the sending loop of `allreduce`. -/
def launch (cfg : Config) (objs : Objects) (w : Worker) (r : TensorRef) : Exchange :=
  let gradSize := Worker.allreduceSize 0 (objs.tensor r)
  let packets := (w.initialPackets cfg (objects cfg objs r) gradSize r).map Hop.packet
  { worker := w, unanswered := packets, sent := packets.map Packet.offset }

/-- The result of a packet, which has the fields of the packet that `receivePacket` reads. -/
def answer (cfg : Config) (objs : Objects) (p : Packet) (s : Exchange) : Option Exchange :=
  if p ∈ s.unanswered then
    let result := s.worker.receivePacket cfg objs p
    some
      { worker := result.worker
        unanswered := s.unanswered.erase p ++ result.sent.map Hop.packet
        sent := s.sent ++ result.sent.map fun hop => hop.packet.offset
        answered := s.answered ++ [p.offset]
        released := s.released + if result.released then 1 else 0 }
  else none

def Reaches (cfg : Config) (objs : Objects) (w : Worker) (r : TensorRef) (s : Exchange) : Prop :=
  Runs.Run (answer cfg (objects cfg objs r)) Runs.anyStep (launch cfg objs w r) s

/-- In whatever order the results arrive, each multiple of `NUM_UPDATES` below the size is sent
once, `num_pkts_expected` is their number, and the last result releases the lock. -/
structure Covered (cfg : Config) (objs : Objects) (w : Worker) (r : TensorRef) : Prop where
  expected : Worker.pktsExpected cfg (objs.tensor r).size =
    (cfg.offsets (objs.tensor r).size).length
  distinct : ∀ s, Reaches cfg objs w r s → s.sent.Nodup
  inside : ∀ s, Reaches cfg objs w r s → s.sent ⊆ cfg.offsets (objs.tensor r).size
  complete : ∀ s, Reaches cfg objs w r s → s.unanswered = [] →
    s.sent.Perm (cfg.offsets (objs.tensor r).size) ∧ s.released = 1

end Exchange

namespace Config
variable {cfg : Config} {gradSize : Nat}

theorem offsets_length (cfg : Config) (gradSize : Nat) :
    (cfg.offsets gradSize).length = cfg.pkts gradSize := by simp [offsets]

theorem nextStart_mul (k : Nat) :
    Worker.nextStart cfg (k * cfg.numUpdates) = u32 ((k + cfg.numSlots) * cfg.numUpdates) := by
  rw [Worker.nextStart,Nat.add_mul,Nat.mul_comm cfg.numUpdates,u32,u32,u32,Nat.add_mod_mod]

theorem Covers.offset_lt (covers : cfg.Covers gradSize) (inside : k < cfg.pkts gradSize) :
    k * cfg.numUpdates < 2^32 :=
  Nat.lt_of_le_of_lt (Nat.mul_le_mul_right _ (by omega)) covers.offsets

section updates
variable (updates : 0 < cfg.numUpdates)
include updates

theorem mem_offsets : o ∈ cfg.offsets gradSize ↔ cfg.numUpdates ∣ o ∧ o < gradSize := by
  simp only [offsets,List.mem_map,List.mem_range]
  constructor
  · rintro ⟨k,inside,rfl⟩
    exact ⟨Nat.dvd_mul_left _ _,(lt_pkts updates).mp inside⟩
  · rintro ⟨⟨k,rfl⟩,inside⟩
    rw [Nat.mul_comm] at inside
    exact ⟨k,(lt_pkts updates).mpr inside,Nat.mul_comm ..⟩

theorem mem_offsets_mul : k * cfg.numUpdates ∈ cfg.offsets gradSize ↔ k < cfg.pkts gradSize := by
  rw [mem_offsets updates,lt_pkts updates]
  exact and_iff_right (Nat.dvd_mul_left _ _)

theorem offsets_distinct (gradSize : Nat) : (cfg.offsets gradSize).Nodup :=
  List.nodup_range.map fun _ _ same => Nat.eq_of_mul_eq_mul_right updates same

theorem size_le (gradSize : Nat) : gradSize ≤ cfg.pkts gradSize * cfg.numUpdates :=
  Nat.not_lt.mp fun inside => Nat.lt_irrefl _ ((lt_pkts updates).mpr inside)

theorem pkts_pos (positive : 0 < gradSize) : 0 < cfg.pkts gradSize :=
  (lt_pkts updates).mpr (by omega)

theorem Covers.pkts_lt (covers : cfg.Covers gradSize) (slots : cfg.numSlots < 2^32) :
    cfg.pkts gradSize < 2^32 := by
  rcases Nat.lt_or_ge cfg.numSlots (cfg.pkts gradSize) with many | few
  · have fits := covers.size many
    have last : (cfg.pkts gradSize - 1) * cfg.numUpdates < gradSize :=
      (lt_pkts updates).mp (by omega)
    have := Nat.le_mul_of_pos_right (cfg.pkts gradSize - 1) updates
    omega
  · omega

/-- The sending loop sends the offsets of the first packets of all slots that have one. -/
theorem Covers.loop_eq (covers : cfg.Covers gradSize) :
    (List.range cfg.numSlots).takeWhile (fun slot => u32 (slot * cfg.numUpdates) < gradSize) =
      List.range (min cfg.numSlots (cfg.pkts gradSize)) := by
  have inside (k : Nat) (member : k ∈ List.range (min cfg.numSlots (cfg.pkts gradSize))) :
      decide (u32 (k * cfg.numUpdates) < gradSize) = true := by
    have below := Nat.lt_of_lt_of_le (List.mem_range.mp member) (Nat.min_le_right _ _)
    rw [u32_of_lt (covers.offset_lt below)]
    exact decide_eq_true ((lt_pkts updates).mp below)
  rcases Nat.lt_or_ge (cfg.pkts gradSize) cfg.numSlots with short | long
  · obtain ⟨rest,split⟩ := Nat.exists_eq_add_of_lt short
    rw [Nat.min_eq_right short.le] at inside ⊢
    rw [split,Nat.add_assoc,List.range_add,List.takeWhile_append_of_pos inside,
      List.range_succ_eq_map,List.map_cons,List.takeWhile_cons_of_neg,List.append_nil]
    simpa using covers.loop short
  · rw [Nat.min_eq_left long] at inside ⊢
    exact List.takeWhile_eq_self_iff.mpr inside

end updates

theorem takeWhile_range (p : Nat → Bool) (n : Nat) (holds : ∀ k < m, p k = true) (le : m ≤ n) :
    List.range m <+: (List.range n).takeWhile p := by
  obtain ⟨rest,rfl⟩ := Nat.exists_eq_add_of_le le
  rw [List.range_add,List.takeWhile_append_of_pos fun k member => holds k (List.mem_range.mp member)]
  exact List.prefix_append _ _

end Config

namespace Exchange
variable {cfg : Config} {objs : Objects} {w : Worker} {r : TensorRef} {s s' : Exchange}

/-- What holds in every run: the packets carry the tensor and the cut size, and before the release
the offsets received are those answered. -/
structure Sound (cfg : Config) (objs : Objects) (r : TensorRef) (s : Exchange) : Prop where
  tensor : ∀ p ∈ s.unanswered, p.tensor = r
  gradSize : ∀ p ∈ s.unanswered, p.gradSize = u32 (objs.tensor r).size
  sent : (s.unanswered.map Packet.offset ++ s.answered).Perm s.sent
  received : s.released = 0 → s.worker.received (u32 (r.key cfg)) = s.answered.toFinset

def Tagged (objs : Objects) (r : TensorRef) (p : Packet) : Prop :=
  p.tensor = r ∧ p.gradSize = u32 (objs.tensor r).size

theorem launch_sound (fresh : w.received (u32 (r.key cfg)) = ∅) :
    Sound cfg objs r (launch cfg objs w r) := by
  have shape (p) (member : p ∈ (launch cfg objs w r).unanswered) : Tagged objs r p := by
    obtain ⟨hop,inside,rfl⟩ := List.mem_map.mp member
    obtain ⟨slot,_,rfl⟩ := List.mem_map.mp inside
    exact ⟨rfl,rfl⟩
  refine ⟨fun p member => (shape p member).1,fun p member => (shape p member).2,?_,fun _ => ?_⟩
  · rw [show (launch cfg objs w r).answered = [] from rfl,List.append_nil]
    exact List.Perm.refl _
  · exact fresh

theorem mem_of_answer (taken : answer cfg objs p s = some s') : p ∈ s.unanswered := by
  by_contra absent
  simp [answer,absent] at taken

def reply (cfg : Config) (gradSize offset : Nat) : List Nat :=
  if u32 gradSize ≤ Worker.nextStart cfg offset then [] else [Worker.nextStart cfg offset]

/-- A result that is not the last is followed by the slot's next packet if it is within the
size. The last one releases the lock. -/
theorem answer_spec (sound : Sound cfg objs r s) (distinct : s.sent.Nodup)
    (waiting : s.released = 0) {p : Packet} (member : p ∈ s.unanswered) :
    ∃ s', answer cfg (objects cfg objs r) p s = some s' ∧ Sound cfg objs r s' ∧
      s'.answered = s.answered ++ [p.offset] ∧
      ((s.answered.length + 1 = Worker.pktsExpected cfg (objs.tensor r).size ∧
          s'.sent = s.sent ∧ s'.released = 1) ∨
        (s.answered.length + 1 ≠ Worker.pktsExpected cfg (objs.tensor r).size ∧
          s'.sent = s.sent ++ reply cfg (objs.tensor r).size p.offset ∧ s'.released = 0)) := by
  have tagged := sound.tensor p member
  have size := sound.gradSize p member
  have received := sound.received waiting
  have split := ((List.perm_cons_erase member).map Packet.offset).append_right s.answered
  have all : (p.offset :: ((s.unanswered.erase p).map Packet.offset ++ s.answered)).Nodup :=
    (split.symm.trans sound.sent).nodup_iff.mpr distinct
  have new : p.offset ∉ s.answered := fun old =>
    (List.nodup_cons.mp all).1 (List.mem_append_right _ old)
  have once : s.answered.Nodup := (List.nodup_append.mp (List.nodup_cons.mp all).2).2.1
  have fresh : p.offset ∉ s.worker.received (u32 (p.tensor.key cfg)) := by
    rw [tagged,received]
    simpa using new
  have card : (insert p.offset (s.worker.received (u32 (p.tensor.key cfg)))).card =
      s.answered.length + 1 := by
    rw [Finset.card_insert_of_notMem fresh,tagged,received,List.toFinset_card_of_nodup once]
  have expected : ((objects cfg objs r).tensor p.tensor).numPktsExpected =
      Worker.pktsExpected cfg (objs.tensor r).size := by
    rw [tagged]
    simp [objects,Worker.allreduceSize]
  have perm (new : List Nat) : ((s.unanswered.erase p).map Packet.offset ++ new ++
      (s.answered ++ [p.offset])).Perm (s.sent ++ new) := by
    refine List.perm_iff_count.mpr fun o => ?_
    have counts := (split.symm.trans sound.sent).count_eq o
    simp only [List.map_cons,List.cons_append,List.count_cons,List.count_append,
      List.count_nil] at counts ⊢
    omega
  have kept (q) (inside : q ∈ s.unanswered.erase p) := List.mem_of_mem_erase inside
  simp only [answer,if_pos member]
  by_cases last : s.answered.length + 1 = Worker.pktsExpected cfg (objs.tensor r).size
  · rw [Worker.receive_last cfg _ _ p fresh (by rw [card,expected,last])]
    refine ⟨_,rfl,⟨fun q inside => ?_,fun q inside => ?_,?_,?_⟩,rfl,Or.inl ⟨last,?_,?_⟩⟩
    · exact sound.tensor q (kept q (by simpa using inside))
    · exact sound.gradSize q (kept q (by simpa using inside))
    · simpa using perm []
    · simp [waiting]
    · simp
    · simp [waiting]
  · have more : (insert p.offset (s.worker.received (u32 (p.tensor.key cfg)))).card ≠
        ((objects cfg objs r).tensor p.tensor).numPktsExpected := by rwa [card,expected]
    have grown : insert p.offset (s.worker.received (u32 (p.tensor.key cfg))) =
        (s.answered ++ [p.offset]).toFinset := by
      rw [tagged,received]
      ext o
      simp
    by_cases past : u32 (objs.tensor r).size ≤ Worker.nextStart cfg p.offset
    · have none : reply cfg (objs.tensor r).size p.offset = [] := if_pos past
      rw [Worker.receive_stop cfg _ _ p fresh more (by rwa [size])]
      refine ⟨_,rfl,⟨fun q inside => ?_,fun q inside => ?_,?_,fun _ => ?_⟩,rfl,
        Or.inr ⟨last,?_,?_⟩⟩
      · exact sound.tensor q (kept q (by simpa using inside))
      · exact sound.gradSize q (kept q (by simpa using inside))
      · simpa using perm []
      · rw [← grown,tagged]
        exact Worker.received_setReceived ..
      · simp [none]
      · simp [waiting]
    · have some : reply cfg (objs.tensor r).size p.offset = [Worker.nextStart cfg p.offset] :=
        if_neg past
      rw [Worker.receive_next cfg _ _ p fresh more (by rw [size]; omega)]
      refine ⟨_,rfl,⟨fun q inside => ?_,fun q inside => ?_,?_,fun _ => ?_⟩,rfl,
        Or.inr ⟨last,?_,?_⟩⟩
      · rcases List.mem_append.mp inside with old | new
        · exact sound.tensor q (kept q old)
        · obtain rfl := List.mem_singleton.mp new
          exact tagged
      · rcases List.mem_append.mp inside with old | new
        · exact sound.gradSize q (kept q old)
        · obtain rfl := List.mem_singleton.mp new
          change u32 p.gradSize = _
          rw [size,u32_of_lt (u32_lt _)]
      · simpa [Worker.sendPacket] using perm [Worker.nextStart cfg p.offset]
      · rw [← grown,tagged]
        exact Worker.received_setReceived ..
      · rw [some]
        rfl
      · simp [waiting]

/-- What both directions know of a state: nothing is sent twice or outside of the gradient, and
the lock is released with the last of the offsets. -/
structure Regular (cfg : Config) (objs : Objects) (r : TensorRef) (s : Exchange) : Prop where
  sound : Sound cfg objs r s
  distinct : s.sent.Nodup
  inside : s.sent ⊆ cfg.offsets (objs.tensor r).size
  released : s.answered.length < cfg.pkts (objs.tensor r).size ∧ s.released = 0 ∨
    s.answered.length = cfg.pkts (objs.tensor r).size ∧ s.released = 1

namespace Regular

theorem split (regular : Regular cfg objs r s) :
    (s.unanswered.map Packet.offset ++ s.answered).Nodup :=
  regular.sound.sent.nodup_iff.mpr regular.distinct

theorem mem_sent (regular : Regular cfg objs r s) : o ∈ s.sent ↔
    o ∈ s.unanswered.map Packet.offset ∨ o ∈ s.answered := by
  rw [← regular.sound.sent.mem_iff,List.mem_append]

theorem length_le (regular : Regular cfg objs r s) :
    s.sent.length ≤ cfg.pkts (objs.tensor r).size := by
  rw [← Config.offsets_length]
  exact (regular.distinct.subperm regular.inside).length_le

theorem full (regular : Regular cfg objs r s)
    (length : cfg.pkts (objs.tensor r).size ≤ s.sent.length) :
    s.sent.Perm (cfg.offsets (objs.tensor r).size) := by
  refine (regular.distinct.subperm regular.inside).perm_of_length_le ?_
  rwa [Config.offsets_length]

theorem waiting (regular : Regular cfg objs r s) {p : Packet} (member : p ∈ s.unanswered) :
    s.answered.length < cfg.pkts (objs.tensor r).size ∧ s.released = 0 := by
  rcases regular.released with waiting | ⟨all,_⟩
  · exact waiting
  · have lengths := regular.sound.sent.length_eq
    have bound := regular.length_le
    have positive := List.length_pos_of_mem member
    rw [List.length_append,List.length_map] at lengths
    omega

end Regular

theorem launch_sent : (launch cfg objs w r).sent =
    ((List.range cfg.numSlots).takeWhile fun slot =>
      u32 (slot * cfg.numUpdates) < (objs.tensor r).size).map
        fun slot => u32 (slot * cfg.numUpdates) := by
  simp [launch,Worker.initialPackets,Worker.sendPacket,Worker.allreduceSize,Function.comp_def]

end Exchange
end CloudSim
