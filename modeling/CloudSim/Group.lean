import CloudSim.Collective

/-! What a collective scheduler is for, one layer of a job at a time: its workers arrive, the
full group is reduced in rounds of one chunk, and then its turn is over. The clients of a
scheduler that works like this are determined by the groups. -/
namespace CloudSim

inductive Phase where
  | gathering (chunks : Nat)
  | reducing (chunks waiter : Nat) (outstanding : List Nat)
  | served
  deriving DecidableEq, Repr

structure Group where
  turn : Nat := 0
  arrived : List Nat := []
  phase : Phase := .gathering 0
  deriving DecidableEq, Repr

namespace Group

/-- The round after `chunks` others is the last. -/
def Last (chunkSize size chunks : Nat) : Prop := chunkSize = 0 ∨ size ≤ (chunks + 1) * chunkSize

instance (chunkSize size chunks : Nat) : Decidable (Last chunkSize size chunks) :=
  inferInstanceAs (Decidable (_ ∨ _))

variable (chunkSize size : Nat)

/-- Worker `w` has ended the pass of this turn. -/
def ended (g : Group) (w : Nat) : Bool :=
  match g.phase with
  | .gathering _ => false
  | .reducing chunks _ outstanding => decide (Last chunkSize size chunks ∧ w ∉ outstanding)
  | .served => true

/-- What worker `w` has reduced of an unfinished pass. -/
def progress (g : Group) (w : Nat) : Nat :=
  match g.phase with
  | .gathering chunks => chunks * chunkSize
  | .reducing chunks _ outstanding =>
    if w ∈ outstanding then chunks * chunkSize
    else if Last chunkSize size chunks then 0 else (chunks + 1) * chunkSize
  | .served => 0

def entries (g : Group) (j t : Nat) : List Entry := g.arrived.map fun w => ⟨⟨w,j,t⟩,g.turn⟩

/-- The calls of `allreduce` that have not ended. -/
def calls (g : Group) (j t : Nat) : List Call :=
  match g.phase with
  | .reducing _ waiter outstanding => outstanding.map fun w => ⟨waiter,⟨⟨w,j,t⟩,g.turn⟩⟩
  | _ => []

def arrive (g : Group) (w : Nat) : Group := { g with arrived := g.arrived ++ [w] }

def launch (g : Group) (chunks waiter : Nat) : Group :=
  { g with phase := .reducing chunks waiter g.arrived }

def answer (g : Group) (chunks waiter : Nat) (outstanding : List Nat) (w : Nat) : Group :=
  { g with phase := .reducing chunks waiter (outstanding.erase w) }

def settle (g : Group) (chunks : Nat) : Group :=
  { g with phase := if Last chunkSize size chunks then .served else .gathering (chunks + 1) }

def close (g : Group) : Group := { turn := g.turn + 1 }

section fields
variable (g : Group) (chunks waiter w : Nat) (outstanding : List Nat)

@[simp] theorem arrive_turn : (g.arrive w).turn = g.turn := rfl
@[simp] theorem arrive_arrived : (g.arrive w).arrived = g.arrived ++ [w] := rfl
@[simp] theorem arrive_phase : (g.arrive w).phase = g.phase := rfl
@[simp] theorem launch_turn : (g.launch chunks waiter).turn = g.turn := rfl
@[simp] theorem launch_arrived : (g.launch chunks waiter).arrived = g.arrived := rfl
@[simp] theorem launch_phase : (g.launch chunks waiter).phase = .reducing chunks waiter g.arrived :=
  rfl
@[simp] theorem answer_turn : (g.answer chunks waiter outstanding w).turn = g.turn := rfl
@[simp] theorem answer_arrived : (g.answer chunks waiter outstanding w).arrived = g.arrived := rfl
@[simp] theorem answer_phase : (g.answer chunks waiter outstanding w).phase =
    .reducing chunks waiter (outstanding.erase w) := rfl
@[simp] theorem settle_turn : (g.settle chunkSize size chunks).turn = g.turn := rfl
@[simp] theorem settle_arrived : (g.settle chunkSize size chunks).arrived = g.arrived := rfl
@[simp] theorem settle_phase : (g.settle chunkSize size chunks).phase =
    if Last chunkSize size chunks then .served else .gathering (chunks + 1) := rfl
@[simp] theorem close_turn : g.close.turn = g.turn + 1 := rfl
@[simp] theorem close_arrived : g.close.arrived = [] := rfl
@[simp] theorem close_phase : g.close.phase = .gathering 0 := rfl

end fields

/-- Only a full group has left its first phase, and its rounds stay inside the tensor. -/
structure WellFormed (wids : List Nat) (g : Group) : Prop where
  inside : g.arrived ⊆ wids
  distinct : g.arrived.Nodup
  full : g.phase ≠ .gathering 0 → g.arrived.length = wids.length
  gathering : ∀ chunks, g.phase = .gathering chunks → chunks = 0 ∨ chunks * chunkSize < size
  reducing : ∀ chunks waiter outstanding, g.phase = .reducing chunks waiter outstanding →
    (chunks = 0 ∨ chunks * chunkSize < size) ∧ outstanding.Nodup ∧ outstanding ⊆ g.arrived

theorem last_iff (positive : 0 < chunkSize) (fits : size + chunkSize < 2^64)
    (inside : chunks = 0 ∨ chunks * chunkSize < size) :
    size ≤ u64 (chunks * chunkSize + chunkSize) ↔ Last chunkSize size chunks := by
  have below : chunks * chunkSize + chunkSize < 2^64 := by
    rcases inside with rfl | inside <;> omega
  rw [u64_of_lt below,Last,Nat.succ_mul]
  exact (or_iff_right positive.ne').symm

theorem full_of_length {wids : List Nat} {g : Group}
    (wellFormed : g.WellFormed chunkSize size wids) (length : g.arrived.length = wids.length) :
    g.arrived.Perm wids :=
  (wellFormed.distinct.subperm wellFormed.inside).perm_of_length_le length.ge

theorem WellFormed.arrived_le {chunkSize size : Nat} {wids : List Nat} {g : Group}
    (wellFormed : g.WellFormed chunkSize size wids) : g.arrived.length ≤ wids.length :=
  (wellFormed.distinct.subperm wellFormed.inside).length_le

theorem mem_entries {g : Group} {e : Entry} : e ∈ g.entries j t ↔
    e.tensor.job = j ∧ e.tensor.tensorId = t ∧ e.turn = g.turn ∧ e.tensor.machine ∈ g.arrived := by
  constructor
  · intro member
    obtain ⟨w,arrived,rfl⟩ := List.mem_map.mp member
    exact ⟨rfl,rfl,rfl,arrived⟩
  · obtain ⟨⟨w,_,_⟩,_⟩ := e
    rintro ⟨rfl,rfl,rfl,arrived⟩
    exact List.mem_map.mpr ⟨w,arrived,rfl⟩

theorem count_entries {g : Group} (distinct : g.arrived.Nodup) (e : Entry) :
    (g.entries j t).count e = if e ∈ g.entries j t then 1 else 0 := by
  refine List.Nodup.count (distinct.map ?_)
  intro w v same
  injection same with same
  injection same

end Group

def Call.ofLayer (j t : Nat) (call : Call) : Bool :=
  call.entry.tensor.job == j && call.entry.tensor.tensorId == t

/-- The clients agree with the group of one layer. -/
structure Represents (work : Workload) (chunkSize : Nat) (c : Clients) (j t : Nat) (g : Group) :
    Prop where
  wellFormed : g.WellFormed chunkSize (work.size j t) (work.widsAllocated j)
  turnsLeft : g.arrived ≠ [] → g.turn < work.nIter j
  size : ∀ w ∈ work.widsAllocated j, (c.tensor ⟨w,j,t⟩).size = work.size j t
  enqueued : ∀ w ∈ work.widsAllocated j,
    c.enqueued ⟨w,j,t⟩ = g.turn + if w ∈ g.arrived then 1 else 0
  iter : ∀ w ∈ work.widsAllocated j,
    (c.tensor ⟨w,j,t⟩).iter = g.turn + (g.ended chunkSize (work.size j t) w).toNat
  allreducedSize : ∀ w ∈ work.widsAllocated j,
    (c.tensor ⟨w,j,t⟩).allreducedSize = g.progress chunkSize (work.size j t) w
  served : ∀ w ∈ work.widsAllocated j, ∀ turn,
    c.served.count ⟨⟨w,j,t⟩,turn⟩ = if turn < (c.tensor ⟨w,j,t⟩).iter then 1 else 0
  reduced : ∀ w ∈ work.widsAllocated j, ∀ turn,
    c.reduced ⟨⟨w,j,t⟩,turn⟩ = if turn < (c.tensor ⟨w,j,t⟩).iter then work.size j t
      else if turn = g.turn then (c.tensor ⟨w,j,t⟩).allreducedSize else 0
  calls : (c.calls.filter (Call.ofLayer j t)).Perm (g.calls j t)

section progress
variable {chunkSize size chunks : Nat} {t : Tensor}

theorem allreduceSize_last (fits : size < 2^64) (sized : t.size = size)
    (reduced : t.allreducedSize = chunks * chunkSize)
    (inside : chunks = 0 ∨ chunks * chunkSize < size) (last : Group.Last chunkSize size chunks) :
    t.allreducedSize + Worker.allreduceSize chunkSize t = size := by
  unfold Worker.allreduceSize
  rcases last with whole | rest
  · simp [whole,reduced,sized]
  · have below : chunks * chunkSize ≤ size := by
      rcases inside with rfl | below
      · simp
      · exact Nat.le_of_lt below
    rw [Nat.succ_mul] at rest
    by_cases whole : chunkSize = 0
    · simp [whole,reduced,sized]
    · rw [if_neg whole,reduced,sized,sub64_of_le below fits]
      omega

theorem allreduceSize_more (fits : size < 2^64) (sized : t.size = size)
    (reduced : t.allreducedSize = chunks * chunkSize) (more : ¬Group.Last chunkSize size chunks) :
    Worker.allreduceSize chunkSize t = chunkSize := by
  simp only [Group.Last,not_or,Nat.not_le,Nat.succ_mul] at more
  obtain ⟨positive,rest⟩ := more
  rw [Worker.allreduceSize,if_neg positive,reduced,sized,sub64_of_le (by omega) fits]
  omega

theorem endsPass_iff (fits : size < 2^64) (sized : t.size = size)
    (reduced : t.allreducedSize = chunks * chunkSize)
    (inside : chunks = 0 ∨ chunks * chunkSize < size) :
    Clients.endsPass chunkSize t = decide (Group.Last chunkSize size chunks) := by
  unfold Clients.endsPass
  by_cases last : Group.Last chunkSize size chunks
  · rw [allreduceSize_last fits sized reduced inside last,u64_of_lt fits,sized]
    simp [last]
  · have more := last
    simp only [Group.Last,not_or,Nat.not_le,Nat.succ_mul] at more
    rw [allreduceSize_more fits sized reduced last,reduced,sized,u64_of_lt (by omega)]
    simp only [last,decide_false,decide_eq_false_iff_not]
    omega

theorem advanceTensor_progress (fits : size < 2^64) (sized : t.size = size)
    (reduced : t.allreducedSize = chunks * chunkSize)
    (inside : chunks = 0 ∨ chunks * chunkSize < size) :
    (Worker.advanceTensor t (Worker.allreduceSize chunkSize t)).size = size ∧
    (Worker.advanceTensor t (Worker.allreduceSize chunkSize t)).allreducedSize =
      (if Group.Last chunkSize size chunks then 0 else (chunks + 1) * chunkSize) ∧
    (Worker.advanceTensor t (Worker.allreduceSize chunkSize t)).iter =
      if Group.Last chunkSize size chunks then u32 (t.iter + 1) else t.iter := by
  have ends := endsPass_iff fits sized reduced inside
  simp only [Clients.endsPass,decide_eq_decide] at ends
  by_cases last : Group.Last chunkSize size chunks
  · rw [Worker.advanceTensor_whole (ends.mpr last)]
    simp [last,sized]
  · rw [Worker.advanceTensor_part fun whole => last (ends.mp whole)]
    have more := last
    simp only [Group.Last,not_or,Nat.not_le,Nat.succ_mul] at more
    rw [allreduceSize_more fits sized reduced last,reduced,u64_of_lt (by omega)]
    simp [last,sized,Nat.succ_mul]

/-- The end of a round, as `Worker::allreduce` records it in its tensor. -/
theorem advanceTensor_fields (fits : size < 2^64) (sized : t.size = size)
    (reduced : t.allreducedSize = chunks * chunkSize)
    (inside : chunks = 0 ∨ chunks * chunkSize < size) (small : t.iter + 1 < 2^32) :
    (Worker.advanceTensor t (Worker.allreduceSize chunkSize t)).size = size ∧
    (Worker.advanceTensor t (Worker.allreduceSize chunkSize t)).iter =
      t.iter + (decide (Group.Last chunkSize size chunks)).toNat ∧
    (Worker.advanceTensor t (Worker.allreduceSize chunkSize t)).allreducedSize =
      if Group.Last chunkSize size chunks then 0 else (chunks + 1) * chunkSize := by
  obtain ⟨kept,progress,iter⟩ := advanceTensor_progress fits sized reduced inside
  refine ⟨kept,?_,progress⟩
  rw [iter]
  by_cases last : Group.Last chunkSize size chunks
  · simp [last,u32_of_lt small]
  · simp [last]

end progress

namespace Represents
variable {work : Workload} {chunkSize : Nat} {c d : Clients} {j t : Nat} {g : Group}

theorem frame (rep : Represents work chunkSize c j t g)
    (tensor : ∀ w, d.tensor ⟨w,j,t⟩ = c.tensor ⟨w,j,t⟩)
    (enqueued : ∀ w, d.enqueued ⟨w,j,t⟩ = c.enqueued ⟨w,j,t⟩)
    (served : ∀ w turn, d.served.count ⟨⟨w,j,t⟩,turn⟩ = c.served.count ⟨⟨w,j,t⟩,turn⟩)
    (reduced : ∀ w turn, d.reduced ⟨⟨w,j,t⟩,turn⟩ = c.reduced ⟨⟨w,j,t⟩,turn⟩)
    (calls : (d.calls.filter (Call.ofLayer j t)).Perm (c.calls.filter (Call.ofLayer j t))) :
    Represents work chunkSize d j t g := by
  refine ⟨rep.wellFormed,rep.turnsLeft,?_,?_,?_,?_,?_,?_,calls.trans rep.calls⟩
  · simpa only [tensor] using rep.size
  · simpa only [enqueued] using rep.enqueued
  · simpa only [tensor] using rep.iter
  · simpa only [tensor] using rep.allreducedSize
  · simpa only [tensor,served] using rep.served
  · simpa only [tensor,reduced] using rep.reduced

theorem mem_arrived (rep : Represents work chunkSize c j t g)
    (full : g.arrived.length = work.numWorkersAllocated j) (member : w ∈ work.widsAllocated j) :
    w ∈ g.arrived :=
  (Group.full_of_length chunkSize _ rep.wellFormed full).mem_iff.mpr member

/-- While the group has room, it is in its first phase and an enqueue is an arrival. -/
theorem of_room (rep : Represents work chunkSize c j t g)
    (may : c.MayEnqueue work ⟨w,j,t⟩) (room : g.arrived.length < work.numWorkersAllocated j) :
    g.phase = .gathering 0 ∧ w ∉ g.arrived ∧ c.enqueued ⟨w,j,t⟩ = g.turn := by
  have first : g.phase = .gathering 0 := by
    by_contra later
    exact absurd (rep.wellFormed.full later) room.ne
  obtain ⟨⟨inside,_⟩,_,_,served⟩ := may
  have turn := rep.enqueued w inside
  have iter := rep.iter w inside
  simp only [Group.ended,first,Bool.toNat_false] at iter
  rw [iter,turn] at served
  by_cases arrived : w ∈ g.arrived
  · rw [if_pos arrived] at served
    omega
  · exact ⟨first,arrived,by simpa [arrived] using turn⟩

theorem arrive (rep : Represents work chunkSize c j t g)
    (may : c.MayEnqueue work ⟨w,j,t⟩) (room : g.arrived.length < work.numWorkersAllocated j) :
    Represents work chunkSize (c.enqueue ⟨w,j,t⟩) j t (g.arrive w) := by
  obtain ⟨first,fresh,turn⟩ := rep.of_room may room
  obtain ⟨⟨inside,_⟩,_,left,_⟩ := may
  have wellFormed : (g.arrive w).WellFormed chunkSize (work.size j t) (work.widsAllocated j) := by
    refine ⟨?_,?_,fun later => absurd first later,rep.wellFormed.gathering,?_⟩
    · simpa [Group.arrive] using ⟨rep.wellFormed.inside,inside⟩
    · exact List.nodup_append.mpr ⟨rep.wellFormed.distinct,List.nodup_singleton _,by
        intro a member b same
        rw [List.mem_singleton.mp same]
        rintro rfl
        exact fresh member⟩
    · intro chunks waiter outstanding phase
      rw [Group.arrive,first] at phase
      cases phase
  refine ⟨wellFormed,fun _ => ?_,rep.size,fun v member => ?_,rep.iter,rep.allreducedSize,
    rep.served,rep.reduced,rep.calls⟩
  · exact turn ▸ left
  · by_cases same : v = w
    · subst same
      simp [Clients.enqueue,Group.arrive,turn]
    · simp [Clients.enqueue,Group.arrive,same,rep.enqueued v member]

theorem launch (rep : Represents work chunkSize c j t g) (phase : g.phase = .gathering chunks)
    (full : g.arrived.length = work.numWorkersAllocated j) (waiter : Nat) :
    Represents work chunkSize (c.allreduce waiter (g.entries j t)) j t (g.launch chunks waiter) := by
  have arrived (w : Nat) (member : w ∈ work.widsAllocated j) := rep.mem_arrived full member
  refine ⟨⟨rep.wellFormed.inside,rep.wellFormed.distinct,fun _ => full,?_,?_⟩,rep.turnsLeft,
    rep.size,rep.enqueued,?_,?_,rep.served,rep.reduced,?_⟩
  · intro chunks' same; cases same
  · rintro _ _ _ ⟨⟩
    exact ⟨rep.wellFormed.gathering chunks phase,rep.wellFormed.distinct,List.Subset.refl _⟩
  · intro w member
    have iter := rep.iter w member
    simp only [Group.ended,phase] at iter
    simpa [Group.ended,Group.launch,arrived w member,Clients.allreduce] using iter
  · intro w member
    have allreduced := rep.allreducedSize w member
    simp only [Group.progress,phase] at allreduced
    simpa [Group.progress,Group.launch,arrived w member,Clients.allreduce] using allreduced
  · have none := rep.calls
    simp only [Group.calls,phase,List.perm_nil] at none
    simp only [Clients.allreduce,List.filter_append,none,List.nil_append,Group.entries,Group.calls,
      Group.launch,List.map_map]
    rw [List.filter_eq_self.mpr]
    · exact List.Perm.refl _
    · simp [Call.ofLayer]

theorem settle (rep : Represents work chunkSize c j t g)
    (phase : g.phase = .reducing chunks waiter []) :
    Represents work chunkSize c j t (g.settle chunkSize (work.size j t) chunks) := by
  have full := rep.wellFormed.full (by rw [phase]; exact Phase.noConfusion)
  have none := rep.calls
  simp only [Group.calls,phase,List.map_nil] at none
  by_cases last : Group.Last chunkSize (work.size j t) chunks
  · refine ⟨⟨rep.wellFormed.inside,rep.wellFormed.distinct,fun _ => full,?_,?_⟩,rep.turnsLeft,
      rep.size,rep.enqueued,?_,?_,rep.served,rep.reduced,?_⟩
    · intro chunks' same; simp [Group.settle,last] at same
    · intro _ _ _ same; simp [Group.settle,last] at same
    · intro w member
      simpa [Group.ended,Group.settle,phase,last] using rep.iter w member
    · intro w member
      simpa [Group.progress,Group.settle,phase,last] using rep.allreducedSize w member
    · simpa [Group.calls,Group.settle,last] using none
  · refine ⟨⟨rep.wellFormed.inside,rep.wellFormed.distinct,fun _ => full,?_,?_⟩,rep.turnsLeft,
      rep.size,rep.enqueued,?_,?_,rep.served,rep.reduced,?_⟩
    · intro chunks' same
      simp only [Group.settle,if_neg last,Phase.gathering.injEq] at same
      subst same
      simp only [Group.Last,not_or,Nat.not_le] at last
      exact Or.inr last.2
    · intro _ _ _ same; simp [Group.settle,last] at same
    · intro w member
      simpa [Group.ended,Group.settle,phase,last] using rep.iter w member
    · intro w member
      simpa [Group.progress,Group.settle,phase,last] using rep.allreducedSize w member
    · simpa [Group.calls,Group.settle,last] using none

theorem close (rep : Represents work chunkSize c j t g) (phase : g.phase = .served) :
    Represents work chunkSize c j t g.close := by
  have full := rep.wellFormed.full (by rw [phase]; exact Phase.noConfusion)
  have none := rep.calls
  simp only [Group.calls,phase] at none
  have iter (w : Nat) (member : w ∈ work.widsAllocated j) :
      (c.tensor ⟨w,j,t⟩).iter = g.turn + 1 := by
    simpa [Group.ended,phase] using rep.iter w member
  have allreduced (w : Nat) (member : w ∈ work.widsAllocated j) :
      (c.tensor ⟨w,j,t⟩).allreducedSize = 0 := by
    simpa [Group.progress,phase] using rep.allreducedSize w member
  refine ⟨⟨List.nil_subset _,List.nodup_nil,fun later => absurd rfl later,?_,?_⟩,
    fun some => absurd rfl some,rep.size,?_,?_,?_,rep.served,?_,none⟩
  · rintro _ ⟨⟩; exact Or.inl rfl
  · rintro _ _ _ ⟨⟩
  · intro w member
    simpa [Group.close,rep.mem_arrived full member] using rep.enqueued w member
  · intro w member
    simpa [Group.ended,Group.close] using iter w member
  · intro w member
    simpa [Group.progress,Group.close] using allreduced w member
  · intro w member turn
    have old := rep.reduced w member turn
    rw [iter w member,allreduced w member] at old ⊢
    simpa only [ite_self] using old

theorem awaited (rep : Represents work chunkSize c j t g) (called : call ∈ c.calls)
    (ofLayer : call.ofLayer j t = true) :
    ∃ chunks waiter outstanding w, g.phase = .reducing chunks waiter outstanding ∧
      w ∈ outstanding ∧ call = ⟨waiter,⟨⟨w,j,t⟩,g.turn⟩⟩ := by
  have member := rep.calls.subset (List.mem_filter.mpr ⟨called,ofLayer⟩)
  unfold Group.calls at member
  split at member
  · rename_i chunks waiter outstanding phase
    obtain ⟨w,inside,rfl⟩ := List.mem_map.mp member
    exact ⟨chunks,waiter,outstanding,w,phase,inside,rfl⟩
  · cases member

theorem answer (rep : Represents work chunkSize c j t g)
    (phase : g.phase = .reducing chunks waiter outstanding) (member : w ∈ outstanding)
    (called : ⟨waiter,⟨⟨w,j,t⟩,g.turn⟩⟩ ∈ c.calls) :
    Represents work chunkSize (c.answer chunkSize ⟨waiter,⟨⟨w,j,t⟩,g.turn⟩⟩) j t
      (g.answer chunks waiter outstanding w) := by
  obtain ⟨inside,distinct,within⟩ := rep.wellFormed.reducing _ _ _ phase
  have full := rep.wellFormed.full (by rw [phase]; exact Phase.noConfusion)
  have worker := rep.wellFormed.inside (within member)
  have fits := work.size_fits j t
  have sized := rep.size w worker
  have iter : (c.tensor ⟨w,j,t⟩).iter = g.turn := by
    simpa [Group.ended,phase,member] using rep.iter w worker
  have allreduced : (c.tensor ⟨w,j,t⟩).allreducedSize = chunks * chunkSize := by
    simpa [Group.progress,phase,member] using rep.allreducedSize w worker
  have small : (c.tensor ⟨w,j,t⟩).iter + 1 < 2^32 := by
    have left := rep.turnsLeft (List.ne_nil_of_mem (within member))
    have itersFit := work.itersFit j
    omega
  obtain ⟨newSize,newIter,newReduced⟩ :=
    advanceTensor_fields fits sized allreduced inside small
  have ends := endsPass_iff fits sized allreduced inside
  have gone : w ∉ outstanding.erase w := fun again =>
    (List.Nodup.not_mem_erase distinct) again
  have kept (v : Nat) (other : v ≠ w) : v ∈ outstanding.erase w ↔ v ∈ outstanding :=
    List.mem_erase_of_ne other
  refine ⟨⟨rep.wellFormed.inside,rep.wellFormed.distinct,fun _ => full,?_,?_⟩,rep.turnsLeft,
    fun v known => ?_,rep.enqueued,fun v known => ?_,fun v known => ?_,fun v known turn => ?_,
    fun v known turn => ?_,?_⟩
  · rintro _ ⟨⟩
  · rintro _ _ _ ⟨⟩
    exact ⟨inside,distinct.erase w,fun v kept => within (List.mem_of_mem_erase kept)⟩
  · by_cases same : v = w
    · subst same; simpa using newSize
    · simpa [same] using rep.size v known
  · by_cases same : v = w
    · subst same
      simp [newIter,iter,Group.ended,Group.answer,gone]
    · simpa [same,Group.ended,Group.answer,phase,kept v same] using rep.iter v known
  · by_cases same : v = w
    · subst same
      simp [newReduced,Group.progress,Group.answer,gone]
    · simpa [same,Group.progress,Group.answer,phase,kept v same] using rep.allreducedSize v known
  · have old := rep.served v known turn
    rw [Clients.count_answer_served]
    by_cases same : v = w
    · subst same
      rw [iter] at old
      by_cases last : Group.Last chunkSize (work.size j t) chunks
      · by_cases this : turn = g.turn
        · subst this
          simpa [ends,newIter,iter,last] using old
        · have order : turn < g.turn + 1 ↔ turn < g.turn := by omega
          simpa [ends,newIter,iter,last,this,order] using old
      · simpa [ends,newIter,iter,last] using old
    · simpa [same] using old
  · have old := rep.reduced v known turn
    rw [Clients.answer_reduced]
    by_cases same : v = w
    · subst same
      rw [iter,allreduced] at old
      by_cases this : turn = g.turn
      · subst this
        by_cases last : Group.Last chunkSize (work.size j t) chunks
        · have total := allreduceSize_last fits sized allreduced inside last
          simpa [old,newIter,iter,last,allreduced] using total
        · have part := allreduceSize_more fits sized allreduced last
          simpa [old,newIter,newReduced,iter,last,Group.answer,Nat.succ_mul] using part
      · have order : turn < g.turn + (decide (Group.Last chunkSize (work.size j t) chunks)).toNat ↔
            turn < g.turn := by
          have := Bool.toNat_le (decide (Group.Last chunkSize (work.size j t) chunks))
          omega
        simpa [this,newIter,iter,order,Group.answer] using old
    · simpa [same,Group.answer] using old
  · have split := (List.perm_cons_erase called).filter (Call.ofLayer j t)
    rw [List.filter_cons_of_pos (by simp [Call.ofLayer])] at split
    have all := split.symm.trans rep.calls
    simp only [Group.calls,phase,Group.answer] at all ⊢
    exact (all.trans ((List.perm_cons_erase member).map _)).cons_inv

theorem mem_served (rep : Represents work chunkSize c j t g) (worker : w ∈ work.widsAllocated j)
    (ended : g.ended chunkSize (work.size j t) w = true) : ⟨⟨w,j,t⟩,g.turn⟩ ∈ c.served := by
  have iter := rep.iter w worker
  have count := rep.served w worker g.turn
  rw [iter,ended] at count
  exact List.count_pos_iff.mp (by simp [count])

end Represents

def setGroup (groups : Nat → Nat → Group) (j t : Nat) (g : Group) : Nat → Nat → Group :=
  fun i k => if i = j ∧ k = t then g else groups i k

@[simp] theorem setGroup_same (groups : Nat → Nat → Group) (j t : Nat) (g : Group) :
    setGroup groups j t g j t = g := by simp [setGroup]

theorem setGroup_other {groups : Nat → Nat → Group} {g : Group} (other : ¬(i = j ∧ k = t)) :
    setGroup groups j t g i k = groups i k := by simp [setGroup,other]

@[simp] theorem setGroup_self (groups : Nat → Nat → Group) (j t : Nat) :
    setGroup groups j t (groups j t) = groups := by
  funext i k
  by_cases here : i = j ∧ k = t
  · obtain ⟨rfl,rfl⟩ := here
    exact setGroup_same ..
  · exact setGroup_other here

/-- A launch starts the turn of each member of the full group, and no other turn. -/
theorem Represents.started_launch {groups : Nat → Nat → Group}
    (rep : Represents work chunkSize c j t (groups j t)) (phase : (groups j t).phase = .gathering 0)
    (full : (groups j t).arrived.length = work.numWorkersAllocated j)
    (member : w ∈ work.widsAllocated i) (turn waiter l : Nat) :
    (if turn < (groups i l).turn ∨
        turn = (groups i l).turn ∧ (groups i l).phase ≠ .gathering 0 then 1 else 0) +
      ((groups j t).entries j t).count ⟨⟨w,i,l⟩,turn⟩ =
    let g := setGroup groups j t ((groups j t).launch 0 waiter) i l
    if turn < g.turn ∨ turn = g.turn ∧ g.phase ≠ .gathering 0 then 1 else 0 := by
  rw [Group.count_entries rep.wellFormed.distinct]
  simp only [Group.mem_entries]
  by_cases here : i = j ∧ l = t
  · obtain ⟨rfl,rfl⟩ := here
    have arrived := rep.mem_arrived full member
    rw [setGroup_same]
    rcases Nat.lt_trichotomy turn (groups i l).turn with before | rfl | after
    · simp [phase,Group.launch,before,before.ne]
    · simp [phase,Group.launch,arrived]
    · simp [phase,Group.launch,after.ne',after.not_gt]
  · rw [setGroup_other here]
    have foreign : ¬(i = j ∧ l = t ∧ turn = (groups j t).turn ∧ w ∈ (groups j t).arrived) :=
      fun same => here ⟨same.1,same.2.1⟩
    rw [if_neg foreign,Nat.add_zero]

/-- The clients agree with the groups of all layers. -/
structure Consistent (work : Workload) (chunkSize : Nat) (groups : Nat → Nat → Group)
    (c : Clients) : Prop where
  represents : ∀ j t, t < (work.model j).length → Represents work chunkSize c j t (groups j t)
  allocated : ∀ call ∈ c.calls, work.Allocates call.entry.tensor

namespace Consistent
variable {work : Workload} {chunkSize : Nat} {groups : Nat → Nat → Group} {c : Clients}

theorem initial (work : Workload) (chunkSize : Nat) :
    Consistent work chunkSize (fun _ _ => {}) (Clients.initial work) := by
  refine ⟨fun j t _ => ⟨⟨List.nil_subset _,List.nodup_nil,fun later => absurd rfl later,?_,?_⟩,
    fun some => absurd rfl some,fun _ _ => rfl,fun _ _ => rfl,fun _ _ => rfl,?_,fun _ _ _ => rfl,
    ?_,List.Perm.refl _⟩,by simp [Clients.initial]⟩
  · rintro _ ⟨⟩; exact Or.inl rfl
  · rintro _ _ _ ⟨⟩
  · intro w _; simp [Clients.initial,Group.progress]
  · intro w _ turn; simp [Clients.initial]

/-- An update of one layer that leaves what the clients hold of the others. -/
theorem update (consistent : Consistent work chunkSize groups c) {d : Clients} {j t : Nat}
    {g : Group} (here : t < (work.model j).length → Represents work chunkSize d j t g)
    (others : ∀ i k, ¬(i = j ∧ k = t) → Represents work chunkSize c i k (groups i k) →
      Represents work chunkSize d i k (groups i k))
    (allocated : ∀ call ∈ d.calls, work.Allocates call.entry.tensor) :
    Consistent work chunkSize (setGroup groups j t g) d := by
  refine ⟨fun i k layer => ?_,allocated⟩
  by_cases same : i = j ∧ k = t
  · obtain ⟨rfl,rfl⟩ := same
    simpa using here layer
  · rw [setGroup_other same]
    exact others i k same (consistent.represents i k layer)

theorem enqueue (consistent : Consistent work chunkSize groups c) {r : TensorRef}
    (may : c.MayEnqueue work r)
    (room : (groups r.job r.tensorId).arrived.length < work.numWorkersAllocated r.job) :
    Consistent work chunkSize
      (setGroup groups r.job r.tensorId ((groups r.job r.tensorId).arrive r.machine))
      (c.enqueue r) := by
  refine consistent.update (fun layer => (consistent.represents _ _ layer).arrive may room)
    (fun i k other rep => ?_) consistent.allocated
  refine rep.frame (fun _ => rfl) (fun w => ?_) (fun _ _ => rfl) (fun _ _ => rfl)
    (List.Perm.refl _)
  have distinct : (⟨w,i,k⟩ : TensorRef) ≠ r := by
    rintro rfl; exact other ⟨rfl,rfl⟩
  simp [Clients.enqueue,distinct]

theorem launch (consistent : Consistent work chunkSize groups c) {j t : Nat}
    (layer : t < (work.model j).length) (phase : (groups j t).phase = .gathering chunks)
    (full : (groups j t).arrived.length = work.numWorkersAllocated j) (waiter : Nat) :
    Consistent work chunkSize (setGroup groups j t ((groups j t).launch chunks waiter))
      (c.allreduce waiter ((groups j t).entries j t)) := by
  have rep := consistent.represents j t layer
  refine consistent.update (fun layer => rep.launch phase full waiter)
    (fun i k other rep => ?_) fun call member => ?_
  · refine rep.frame (fun _ => rfl) (fun _ => rfl) (fun _ _ => rfl) (fun _ _ => rfl) ?_
    have foreign : (((groups j t).entries j t).map (Call.mk waiter)).filter (Call.ofLayer i k) =
        [] := by
      refine List.filter_eq_nil_iff.mpr fun call member => ?_
      obtain ⟨entry,inside,rfl⟩ := List.mem_map.mp member
      obtain ⟨w,_,rfl⟩ := List.mem_map.mp inside
      simpa [Call.ofLayer] using fun same => fun also => other ⟨same.symm,also.symm⟩
    rw [Clients.allreduce,List.filter_append,foreign,List.append_nil]
  · rcases List.mem_append.mp member with old | new
    · exact consistent.allocated call old
    · obtain ⟨entry,inside,rfl⟩ := List.mem_map.mp new
      obtain ⟨w,arrived,rfl⟩ := List.mem_map.mp inside
      exact ⟨rep.wellFormed.inside arrived,layer⟩

theorem answer (consistent : Consistent work chunkSize groups c) (called : call ∈ c.calls) :
    ∃ j t w chunks waiter outstanding, t < (work.model j).length ∧
      (groups j t).phase = .reducing chunks waiter outstanding ∧ w ∈ outstanding ∧
      call = ⟨waiter,⟨⟨w,j,t⟩,(groups j t).turn⟩⟩ ∧
      Consistent work chunkSize
        (setGroup groups j t ((groups j t).answer chunks waiter outstanding w))
        (c.answer chunkSize call) := by
  obtain ⟨sender,⟨v,j,t⟩,turn⟩ := call
  have layer : t < (work.model j).length := (consistent.allocated _ called).2
  obtain ⟨chunks,waiter,outstanding,w,phase,member,same⟩ :=
    (consistent.represents j t layer).awaited called (by simp [Call.ofLayer])
  cases same
  refine ⟨j,t,v,chunks,sender,outstanding,layer,phase,member,rfl,?_⟩
  refine consistent.update
    (fun layer => (consistent.represents j t layer).answer phase member called)
    (fun i k other rep => ?_) fun call remains =>
      consistent.allocated call (List.mem_of_mem_erase remains)
  have apart (u : Nat) : (⟨u,i,k⟩ : TensorRef) ≠ ⟨v,j,t⟩ := by
    rintro ⟨⟩; exact other ⟨rfl,rfl⟩
  refine rep.frame (fun u => ?_) (fun _ => rfl) (fun u turn => ?_) (fun u turn => ?_) ?_
  · simp [apart u]
  · simp [Clients.count_answer_served,apart u]
  · simp [apart u]
  · have split := (List.perm_cons_erase called).filter (Call.ofLayer i k)
    rw [List.filter_cons_of_neg (by
      simpa [Call.ofLayer] using fun same => fun also => other ⟨same.symm,also.symm⟩)] at split
    exact split.symm

theorem settle (consistent : Consistent work chunkSize groups c) {j t : Nat}
    (phase : (groups j t).phase = .reducing chunks waiter []) :
    Consistent work chunkSize
      (setGroup groups j t ((groups j t).settle chunkSize (work.size j t) chunks)) c :=
  consistent.update (fun layer => (consistent.represents j t layer).settle phase)
    (fun _ _ _ rep => rep) consistent.allocated

theorem close (consistent : Consistent work chunkSize groups c) {j t : Nat}
    (phase : (groups j t).phase = .served) :
    Consistent work chunkSize (setGroup groups j t (groups j t).close) c :=
  consistent.update (fun layer => (consistent.represents j t layer).close phase)
    (fun _ _ _ rep => rep) consistent.allocated

/-- The last round of a group is over and its queue is emptied. -/
theorem retire (consistent : Consistent work chunkSize groups c) {j t : Nat}
    (phase : (groups j t).phase = .reducing chunks waiter [])
    (last : Group.Last chunkSize (work.size j t) chunks) :
    Consistent work chunkSize (setGroup groups j t (groups j t).close) c := by
  have served : (setGroup groups j t
      ((groups j t).settle chunkSize (work.size j t) chunks) j t).phase = .served := by simp [last]
  have closed := (consistent.settle phase).close served
  have twice : setGroup (setGroup groups j t
      ((groups j t).settle chunkSize (work.size j t) chunks)) j t
      ((groups j t).settle chunkSize (work.size j t) chunks).close =
      setGroup groups j t (groups j t).close := by
    funext i k
    by_cases here : i = j ∧ k = t
    · simp [setGroup,here,Group.close]
    · simp [setGroup,here]
  rwa [setGroup_same,twice] at closed

theorem finish (consistent : Consistent work chunkSize groups c) (w j : Nat) :
    Consistent work chunkSize groups (c.finish w j) :=
  ⟨fun i k layer => (consistent.represents i k layer).frame (fun _ => rfl) (fun _ => rfl)
    (fun _ _ => rfl) (fun _ _ => rfl) (List.Perm.refl _),consistent.allocated⟩

/-- When a worker may tear a job down, every worker has enqueued every tensor for the last
time. -/
theorem all_enqueued (consistent : Consistent work chunkSize groups c)
    (may : c.MayFinish work w j) (layer : t < (work.model j).length)
    (worker : v ∈ work.widsAllocated j) : c.enqueued ⟨v,j,t⟩ = work.nIter j := by
  have rep := consistent.represents j t layer
  obtain ⟨known,_,ended⟩ := may
  obtain ⟨enqueued,iterations⟩ := ended t layer
  rw [rep.enqueued w known] at enqueued
  rw [rep.iter w known] at iterations
  rw [rep.enqueued v worker]
  by_cases nobody : (groups j t).arrived = []
  · simpa [nobody] using enqueued
  · have left := rep.turnsLeft nobody
    have full : (groups j t).arrived.length = work.numWorkersAllocated j := by
      refine rep.wellFormed.full fun phase => ?_
      simp only [Group.ended,phase,Bool.toNat_false,Nat.add_zero] at iterations
      omega
    simpa [rep.mem_arrived full known,rep.mem_arrived full worker] using enqueued

end Consistent
end CloudSim
