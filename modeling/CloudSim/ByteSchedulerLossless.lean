import CloudSim.ByteScheduler

/-! What `ByteScheduler` guarantees while no worker enqueues a tensor whose full group is still in
the queue. -/
namespace CloudSim

def Phase.Reducing : Phase → Prop
  | .reducing _ _ _ => True
  | _ => False

def Group.Closing (chunkSize size : Nat) (g : Group) : Prop :=
  match g.phase with
  | .gathering _ => False
  | .reducing chunks _ _ => Group.Last chunkSize size chunks
  | .served => True

theorem Group.closing_of_ended {g : Group} (ended : g.ended chunkSize size w = true) :
    g.Closing chunkSize size := by
  unfold Group.Closing
  cases phase : g.phase with
  | gathering chunks => simp [Group.ended,phase] at ended
  | reducing chunks waiter outstanding =>
    simp only [Group.ended,phase,decide_eq_true_eq] at ended
    exact ended.1
  | served => exact trivial

namespace ByteScheduler

def Unfinished (s : ByteScheduler) (j : Nat) : Prop := ∀ w, s.clients.finished w j = false

/-- The queues, the flags and the history of the unfinished jobs agree with the groups; the
workers of a finished job have nothing left to enqueue. -/
structure Sound (cfg : Config) (work : Workload) (groups : Nat → Nat → Group)
    (s : ByteScheduler) : Prop where
  consistent : Consistent work cfg.chunkSize groups s.clients
  queue : ∀ j t, t < (work.model j).length → s.Unfinished j →
    s.queue.get (cfg.getKey j t) = (groups j t).entries j t
  readyDistinct : ∀ j, ((s.readyQueue.get j).map TensorRef.tensorId).Nodup
  readyAllocated : ∀ j, ∀ r ∈ s.readyQueue.get j, r.job = j ∧ work.Allocates r
  readyFull : ∀ j t, t < (work.model j).length → s.Unfinished j →
    (t ∈ (s.readyQueue.get j).map TensorRef.tensorId ↔
      (groups j t).arrived ≠ [] ∧ (groups j t).arrived.length = work.numWorkersAllocated j)
  canErase : ∀ j t, t < (work.model j).length → s.Unfinished j →
    (u32 (cfg.getKey j t) ∈ s.canErase ↔
      (groups j t).Closing cfg.chunkSize (work.size j t))
  launches : ∀ entries ∈ s.launches, work.WholeGroup entries
  cleared : ∀ entries ∈ s.cleared, work.WholeGroup entries ∧ ∀ e ∈ entries, e ∈ s.clients.served
  removed : ∀ j t, t < (work.model j).length → s.Unfinished j → ∀ w ∈ work.widsAllocated j, ∀ turn,
    s.cleared.flatten.count ⟨⟨w,j,t⟩,turn⟩ = if turn < (groups j t).turn then 1 else 0
  finished : ∀ w j, s.clients.finished w j = true →
    s.readyQueue j = none ∧ w ∈ work.widsAllocated j ∧ ∀ t < (work.model j).length,
      (∀ v ∈ work.widsAllocated j, s.clients.enqueued ⟨v,j,t⟩ = work.nIter j) ∧
      ∀ turn < work.nIter j, ⟨⟨w,j,t⟩,turn⟩ ∈ s.clients.served

/-- Job `j` has no loop, and nothing is left for one to do. -/
structure Idle (work : Workload) (groups : Nat → Nat → Group) (s : ByteScheduler) (j : Nat) :
    Prop where
  inactive : j ∉ s.activeJobs
  empty : s.readyQueue.get j = []
  none : ∀ id, s.loops id ≠ some j
  quiet : ∀ t < (work.model j).length, ¬(groups j t).phase.Reducing

/-- The only loop of job `j` waits for the only group of the job that is being reduced. -/
structure Running (work : Workload) (groups : Nat → Nat → Group) (s : ByteScheduler)
    (j id : Nat) : Prop where
  active : j ∈ s.activeJobs
  loop : s.loops id = some j
  single : ∀ other, s.loops other = some j → other = id
  ready : s.readyQueue j ≠ none
  current : ∃ t chunks outstanding, t < (work.model j).length ∧
    (groups j t).phase = .reducing chunks id outstanding ∧
    ∀ u < (work.model j).length, (groups j u).phase.Reducing → u = t

/-- The loop `id` of job `j` is at its head. -/
structure Awake (work : Workload) (groups : Nat → Nat → Group) (s : ByteScheduler)
    (j id : Nat) : Prop where
  active : j ∈ s.activeJobs
  own : ∀ i, s.loops id = some i → i = j
  single : ∀ other, s.loops other = some j → other = id
  ready : s.readyQueue j ≠ none
  quiet : ∀ t < (work.model j).length, ¬(groups j t).phase.Reducing

def Attended (work : Workload) (groups : Nat → Nat → Group) (s : ByteScheduler) (j : Nat) : Prop :=
  s.Unfinished j → Idle work groups s j ∨ ∃ id, Running work groups s j id

variable {cfg : Config} {work : Workload} {groups : Nat → Nat → Group} {s : ByteScheduler}

theorem initial_sound (cfg : Config) (work : Workload) :
    Sound cfg work (fun _ _ => {}) (initial work) where
  consistent := Consistent.initial work cfg.chunkSize
  queue _ _ _ _ := rfl
  readyDistinct _ := List.nodup_nil
  readyAllocated _ _ member := by cases member
  readyFull _ _ _ _ := ⟨(fun member => by cases member),fun full => absurd rfl full.1⟩
  canErase _ _ _ _ := by simp [initial,Group.Closing]
  launches _ member := by cases member
  cleared _ member := by cases member
  removed _ _ _ _ _ _ _ := by simp [initial]
  finished _ _ known := by cases known

theorem Sound.unfinished_of_ready (sound : Sound cfg work groups s)
    (ready : s.readyQueue j ≠ none) : s.Unfinished j := fun w =>
  Bool.eq_false_iff.mpr fun finished => ready (sound.finished w j finished).1

theorem Sound.unfinished_of_member (sound : Sound cfg work groups s)
    (member : r ∈ s.readyQueue.get j) : s.Unfinished j :=
  sound.unfinished_of_ready fun none => by
    rw [Table.get,none] at member
    cases member

theorem Sound.unfinished_of_enqueue (sound : Sound cfg work groups s) {r : TensorRef}
    (may : s.clients.MayEnqueue work r) : s.Unfinished r.job := fun w =>
  Bool.eq_false_iff.mpr fun finished => by
    have all := ((sound.finished w r.job finished).2.2 r.tensorId may.1.2).1 r.machine may.1.1
    exact may.2.2.1.ne all

theorem lastChunk_iff {t : Tensor} {size chunks : Nat} (chunk : 1 ≤ cfg.chunkSize)
    (fits : size < 2^64) (sized : t.size = size)
    (reduced : t.allreducedSize = chunks * cfg.chunkSize)
    (inside : chunks = 0 ∨ chunks * cfg.chunkSize < size) :
    lastChunk cfg t = decide (Group.Last cfg.chunkSize size chunks) := by
  have positive : 0 < cfg.chunkSize := chunk
  have small : chunks + 1 < 2^64 := by
    rcases inside with rfl | below
    · decide
    · have := Nat.le_mul_of_pos_right chunks positive
      omega
  have cid : u64 (t.allreducedSize / cfg.chunkSize + 1) = chunks + 1 := by
    rw [reduced,Nat.mul_div_cancel _ positive,u64_of_lt small]
  have last : Group.Last cfg.chunkSize size chunks ↔ size ≤ (chunks + 1) * cfg.chunkSize := by
    unfold Group.Last
    omega
  have parts := Nat.div_add_mod size cfg.chunkSize
  have rest := Nat.mod_lt size positive
  have product : (chunks + 1) * cfg.chunkSize = cfg.chunkSize * chunks + cfg.chunkSize := by
    rw [Nat.succ_mul,Nat.mul_comm]
  simp only [lastChunk,cid,sized,last,decide_eq_decide,product]
  split
  · have below : size / cfg.chunkSize < size := by
      have := Nat.le_mul_of_pos_left (size / cfg.chunkSize) positive
      omega
    rw [u64_of_lt (by omega)]
    rcases Nat.lt_or_ge chunks (size / cfg.chunkSize) with before | after
    · have := Nat.mul_le_mul_left cfg.chunkSize before
      rw [Nat.mul_succ] at this
      omega
    · have := Nat.mul_le_mul_left cfg.chunkSize after
      omega
  · have scaled : cfg.chunkSize * (size / cfg.chunkSize) ≤ cfg.chunkSize * (chunks + 1) ↔
        size / cfg.chunkSize ≤ chunks + 1 := Nat.mul_le_mul_left_iff positive
    rw [Nat.mul_succ] at scaled
    omega

theorem push_sound (distinct : work.DistinctCutKeys cfg) (sound : Sound cfg work groups s)
    {r : TensorRef} (may : s.clients.MayEnqueue work r)
    (room : (groups r.job r.tensorId).arrived.length < work.numWorkersAllocated r.job)
    {queued : Table Nat (List TensorRef)} (elsewhere : ∀ j ≠ r.job, queued j = s.readyQueue j)
    (readyDistinct : ((queued.get r.job).map TensorRef.tensorId).Nodup)
    (readyAllocated : ∀ i ∈ queued.get r.job, i.job = r.job ∧ work.Allocates i)
    (readyOthers : ∀ t ≠ r.tensorId, t ∈ (queued.get r.job).map TensorRef.tensorId ↔
      t ∈ (s.readyQueue.get r.job).map TensorRef.tensorId)
    (readyHere : r.tensorId ∈ (queued.get r.job).map TensorRef.tensorId ↔
      (groups r.job r.tensorId).arrived.length + 1 = work.numWorkersAllocated r.job) :
    Sound cfg work
      (setGroup groups r.job r.tensorId ((groups r.job r.tensorId).arrive r.machine))
      { s.push cfg r with readyQueue := queued } := by
  have layer := may.1.2
  have unfinished := sound.unfinished_of_enqueue may
  obtain ⟨first,_,turn⟩ := (sound.consistent.represents _ _ layer).of_room may room
  have get (j : Nat) (other : j ≠ r.job) : queued.get j = s.readyQueue.get j := by
    simp [Table.get,elsewhere j other]
  refine { sound with
    consistent := sound.consistent.enqueue may room
    queue := fun j t inside open' => ?_
    readyDistinct := fun j => ?_
    readyAllocated := fun j i member => ?_
    readyFull := fun j t inside open' => ?_
    canErase := fun j t inside open' => ?_
    removed := fun j t inside open' w member k => ?_
    finished := fun w j finished => ?_ }
  · by_cases same : j = r.job ∧ t = r.tensorId
    · obtain ⟨rfl,rfl⟩ := same
      simp [push,TensorRef.key,sound.queue _ _ layer open',Group.entries,Clients.nextEntry,turn]
    · have other : cfg.getKey j t ≠ r.key cfg := fun equal =>
        same (distinct.distinctKeys _ _ _ _ inside layer equal)
      rw [setGroup_other same]
      simpa [push,other] using sound.queue j t inside open'
  · by_cases here : j = r.job
    · subst here; exact readyDistinct
    · dsimp only; rw [get j here]; exact sound.readyDistinct j
  · by_cases here : j = r.job
    · subst here; exact readyAllocated i member
    · exact sound.readyAllocated j i (get j here ▸ member)
  · have old := sound.readyFull j t inside open'
    by_cases same : j = r.job ∧ t = r.tensorId
    · obtain ⟨rfl,rfl⟩ := same
      simpa using readyHere
    · rw [setGroup_other same]
      by_cases here : j = r.job
      · subst here
        exact (readyOthers t fun equal => same ⟨rfl,equal⟩).trans old
      · dsimp only; rw [get j here]; exact old
  · have old := sound.canErase j t inside open'
    by_cases same : j = r.job ∧ t = r.tensorId
    · obtain ⟨rfl,rfl⟩ := same
      simpa [push,Group.Closing] using old
    · rw [setGroup_other same]
      exact old
  · have old := sound.removed j t inside open' w member k
    by_cases same : j = r.job ∧ t = r.tensorId
    · obtain ⟨rfl,rfl⟩ := same
      simpa [push] using old
    · rw [setGroup_other same]
      exact old
  · obtain ⟨gone,member,all⟩ := sound.finished w j finished
    have other : j ≠ r.job := by
      rintro rfl
      exact Bool.false_ne_true ((unfinished w).symm.trans finished)
    refine ⟨(elsewhere j other).trans gone,member,fun t inside => ⟨fun v worker => ?_,
      (all t inside).2⟩⟩
    have apart : (⟨v,j,t⟩ : TensorRef) ≠ r := fun same => other (by rw [← same])
    simpa [push,Clients.enqueue,apart] using (all t inside).1 v worker

theorem push_partial_sound (distinct : work.DistinctCutKeys cfg)
    (sound : Sound cfg work groups s) {r : TensorRef} (may : s.clients.MayEnqueue work r)
    (room : (groups r.job r.tensorId).arrived.length + 1 < work.numWorkersAllocated r.job) :
    Sound cfg work
      (setGroup groups r.job r.tensorId ((groups r.job r.tensorId).arrive r.machine))
      (s.push cfg r) := by
  refine push_sound distinct sound may (Nat.lt_of_succ_lt room) (fun _ _ => rfl)
    (sound.readyDistinct r.job) (sound.readyAllocated r.job) (fun _ _ => Iff.rfl) ?_
  rw [sound.readyFull _ _ may.1.2 (sound.unfinished_of_enqueue may)]
  omega

theorem ready_sound (distinct : work.DistinctCutKeys cfg) (sound : Sound cfg work groups s)
    {r : TensorRef} (may : s.clients.MayEnqueue work r)
    (full : (groups r.job r.tensorId).arrived.length + 1 = work.numWorkersAllocated r.job) :
    Sound cfg work
      (setGroup groups r.job r.tensorId ((groups r.job r.tensorId).arrive r.machine))
      ((s.push cfg r).ready r) := by
  have ids := (Heap.push_perm (s.clients.enqueue r).customCompare r (s.readyQueue.get r.job)).map
    TensorRef.tensorId
  have absent : r.tensorId ∉ (s.readyQueue.get r.job).map TensorRef.tensorId := by
    rw [sound.readyFull _ _ may.1.2 (sound.unfinished_of_enqueue may)]
    omega
  refine push_sound distinct sound may (by omega) (fun j other => by simp [push,other]) ?_
    (fun i member => ?_) (fun t differ => ?_) ?_
  · simp only [push,Table.get_put_same]
    rw [ids.nodup_iff]
    exact List.nodup_cons.mpr ⟨absent,sound.readyDistinct r.job⟩
  · simp only [push,Table.get_put_same] at member
    rcases Heap.mem_push _ |>.mp member with rfl | old
    · exact ⟨rfl,may.1⟩
    · exact sound.readyAllocated r.job i old
  · simp only [push,Table.get_put_same]
    rw [ids.mem_iff]
    simp [differ]
  · simp only [push,Table.get_put_same]
    rw [ids.mem_iff]
    simp [full]

theorem whole_entries {chunkSize : Nat} {c : Clients} {j t : Nat} {g : Group}
    (layer : t < (work.model j).length) (rep : Represents work chunkSize c j t g)
    (full : g.arrived.length = work.numWorkersAllocated j) : work.WholeGroup (g.entries j t) :=
  ⟨j,t,g.turn,layer,(Group.full_of_length chunkSize _ rep.wellFormed full).map _⟩

/-- One round of the inner loop: the finished tensor on top leaves, and its queue is cleared. -/
def popTop (cfg : Config) (s : ByteScheduler) (j : Nat) (r : TensorRef) : ByteScheduler :=
  { s with
    canErase := s.canErase.erase (u32 (r.key cfg))
    readyQueue := s.readyQueue.put j (Heap.pop s.clients.customCompare (s.readyQueue.get j))
    queue := s.queue.put (r.key cfg) []
    cleared := s.cleared ++ [s.queue.get (r.key cfg)] }

theorem popTop_served (sound : Sound cfg work groups s) {i t : Nat}
    (layer : t < (work.model i).length) (unfinished : s.Unfinished i)
    (quiet : ¬(groups i t).phase.Reducing) (finished : u32 (cfg.getKey i t) ∈ s.canErase) :
    (groups i t).phase = .served := by
  have closing := (sound.canErase i t layer unfinished).mp finished
  unfold Group.Closing at closing
  cases shape : (groups i t).phase with
  | gathering => simp [shape] at closing
  | reducing => exact absurd (by simp [shape,Phase.Reducing]) quiet
  | served => rfl

/-- What is left of the ready queue has no other tensor of the layer. -/
theorem popTop_ready (sound : Sound cfg work groups s) {r : TensorRef}
    (top : Heap.top (s.readyQueue.get r.job) = some r) :
    ((s.readyQueue.get r.job).map TensorRef.tensorId).Perm
      (r.tensorId :: ((s.popTop cfg r.job r).readyQueue.get r.job).map TensorRef.tensorId) ∧
    r.tensorId ∉ ((s.popTop cfg r.job r).readyQueue.get r.job).map TensorRef.tensorId ∧
    (((s.popTop cfg r.job r).readyQueue.get r.job).map TensorRef.tensorId).Nodup := by
  obtain ⟨rest,shape⟩ : ∃ rest, s.readyQueue.get r.job = r :: rest := by
    cases list : s.readyQueue.get r.job with
    | nil => rw [list] at top; cases top
    | cons head rest =>
      rw [list] at top
      cases top
      exact ⟨rest,rfl⟩
  have perm := (Heap.pop_perm s.clients.customCompare r rest).map TensorRef.tensorId
  rw [← shape] at perm
  have nodup := perm.nodup_iff.mpr (sound.readyDistinct r.job)
  simpa only [popTop,Table.get_put_same] using ⟨perm.symm,List.nodup_cons.mp nodup⟩

/-- Clearing a full group counts its turn for each of its members, and no other turn. -/
theorem count_close {c : Clients} (rep : Represents work cfg.chunkSize c i t (groups i t))
    (full : (groups i t).arrived.length = work.numWorkersAllocated i)
    (worker : v ∈ work.widsAllocated j) (turn u : Nat) :
    (if turn < (groups j u).turn then 1 else 0) +
      ((groups i t).entries i t).count ⟨⟨v,j,u⟩,turn⟩ =
    if turn < (setGroup groups i t (groups i t).close j u).turn then 1 else 0 := by
  rw [Group.count_entries rep.wellFormed.distinct]
  simp only [Group.mem_entries]
  by_cases here : j = i ∧ u = t
  · obtain ⟨rfl,rfl⟩ := here
    have arrived := rep.mem_arrived full worker
    rw [setGroup_same]
    rcases Nat.lt_trichotomy turn (groups j u).turn with before | rfl | after
    · simp [before,before.ne,Nat.lt_succ_of_lt before]
    · simp [arrived]
    · simp [after.ne',after.not_gt,Nat.not_lt.mpr after]
  · rw [setGroup_other here]
    have foreign : ¬(j = i ∧ u = t ∧ turn = (groups i t).turn ∧ v ∈ (groups i t).arrived) :=
      fun same => here ⟨same.1,same.2.1⟩
    rw [if_neg foreign,Nat.add_zero]

theorem popTop_sound (distinct : work.DistinctCutKeys cfg) (sound : Sound cfg work groups s)
    {j : Nat} {r : TensorRef} (top : Heap.top (s.readyQueue.get j) = some r)
    (quiet : ¬(groups j r.tensorId).phase.Reducing) (finished : u32 (r.key cfg) ∈ s.canErase) :
    (groups j r.tensorId).phase = .served ∧
    Sound cfg work (setGroup groups j r.tensorId (groups j r.tensorId).close)
      (s.popTop cfg j r) := by
  have member : r ∈ s.readyQueue.get j := List.mem_of_mem_head? top
  have unfinished := sound.unfinished_of_member member
  obtain ⟨ofJob,allocated⟩ := sound.readyAllocated j r member
  obtain ⟨w,i,t⟩ := r
  cases ofJob
  have layer : t < (work.model i).length := allocated.2
  have phase := popTop_served sound layer unfinished quiet finished
  have rep := sound.consistent.represents i t layer
  have full := rep.wellFormed.full (by rw [phase]; exact Phase.noConfusion)
  have queued : s.queue.get (TensorRef.key cfg ⟨w,i,t⟩) = _ := sound.queue i t layer unfinished
  obtain ⟨perm,gone,remaining⟩ := popTop_ready sound top
  refine ⟨phase,{ sound with
    consistent := sound.consistent.close phase
    queue := fun j u inside open' => ?_
    readyDistinct := fun j => ?_
    readyAllocated := fun j r member => ?_
    readyFull := fun j u inside open' => ?_
    canErase := fun j u inside open' => ?_
    cleared := fun entries member => ?_
    removed := fun j u inside open' v worker turn => ?_
    finished := fun v j finished => ?_ }⟩
  · by_cases same : j = i ∧ u = t
    · obtain ⟨rfl,rfl⟩ := same
      simp [popTop,TensorRef.key,Group.entries]
    · have other : cfg.getKey j u ≠ cfg.getKey i t := fun equal =>
        same (distinct.distinctKeys _ _ _ _ inside layer equal)
      rw [setGroup_other same]
      simpa [popTop,TensorRef.key,other] using sound.queue j u inside open'
  · by_cases here : j = i
    · subst here
      exact remaining
    · simpa [popTop,here] using sound.readyDistinct j
  · by_cases here : j = i
    · subst here
      simp only [popTop,Table.get_put_same] at member
      exact sound.readyAllocated j r (Heap.mem_of_mem_pop _ member)
    · simp only [popTop,Table.get_put_other _ here] at member
      exact sound.readyAllocated j r member
  · have old := sound.readyFull j u inside open'
    by_cases here : j = i
    · subst here
      rw [perm.mem_iff] at old
      by_cases same : u = t
      · subst same
        simpa using gone
      · rw [setGroup_other (by simp [same]),← old]
        simp [same]
    · rw [setGroup_other (by simp [here]),← old]
      simp [popTop,here]
  · have old := sound.canErase j u inside open'
    by_cases same : j = i ∧ u = t
    · obtain ⟨rfl,rfl⟩ := same
      simp [popTop,TensorRef.key,Group.Closing]
    · have other : u32 (cfg.getKey j u) ≠ u32 (cfg.getKey i t) := fun equal =>
        same (distinct j u i t inside layer equal)
      rw [setGroup_other same]
      simpa [popTop,TensorRef.key,other] using old
  · rcases List.mem_append.mp member with earlier | now
    · exact sound.cleared entries earlier
    · rw [List.mem_singleton.mp now,queued]
      refine ⟨whole_entries layer rep full,fun e inside => ?_⟩
      obtain ⟨v,arrived,rfl⟩ := List.mem_map.mp inside
      exact rep.mem_served (rep.wellFormed.inside arrived) (by simp [Group.ended,phase])
  · have old := sound.removed j u inside open' v worker turn
    have added : (s.popTop cfg i ⟨w,i,t⟩).cleared.flatten =
        s.cleared.flatten ++ (groups i t).entries i t := by
      simp only [popTop,List.flatten_append,List.flatten_singleton,queued]
    rw [added,List.count_append,old]
    exact count_close rep full worker turn u
  · obtain ⟨gone,all⟩ := sound.finished v j finished
    have other : j ≠ i := by
      rintro rfl
      exact Bool.false_ne_true ((unfinished v).symm.trans finished)
    exact ⟨by simpa [popTop,other] using gone,all⟩

/-- The loop and the ready queue of job `i` are the same in two states. -/
structure Same (i : Nat) (s t : ByteScheduler) : Prop where
  unfinished : t.Unfinished i → s.Unfinished i
  loops : ∀ id, t.loops id = some i ↔ s.loops id = some i
  active : i ∈ t.activeJobs ↔ i ∈ s.activeJobs
  ready : t.readyQueue i = s.readyQueue i

theorem Same.refl (i : Nat) (s : ByteScheduler) : Same i s s :=
  ⟨id,fun _ => Iff.rfl,Iff.rfl,rfl⟩

theorem Same.trans (first : Same i s t) (second : Same i t u) : Same i s u where
  unfinished := first.unfinished ∘ second.unfinished
  loops id := (second.loops id).trans (first.loops id)
  active := second.active.trans first.active
  ready := second.ready.trans first.ready

theorem Attended.frame {t : ByteScheduler} {after : Nat → Nat → Group}
    (attended : Attended work groups s i) (kept : Same i s t)
    (phases : ∀ k, (after i k).phase = (groups i k).phase) : Attended work after t i := by
  intro unfinished
  rcases attended (kept.unfinished unfinished) with idle | ⟨id,running⟩
  · refine Or.inl ⟨?_,?_,fun id => ?_,fun k inside => ?_⟩
    · rw [kept.active]; exact idle.inactive
    · simpa [Table.get,kept.ready] using idle.empty
    · rw [Ne,kept.loops]; exact idle.none id
    · rw [phases]; exact idle.quiet k inside
  · refine Or.inr ⟨id,?_,?_,fun again known => ?_,?_,?_⟩
    · rw [kept.active]; exact running.active
    · rw [kept.loops]; exact running.loop
    · exact running.single again ((kept.loops again).mp known)
    · rw [kept.ready]; exact running.ready
    · simpa only [phases] using running.current

theorem popFinished_succ {r : TensorRef} (top : Heap.top (s.readyQueue.get j) = some r)
    (finished : u32 (r.key cfg) ∈ s.canErase) (fuel : Nat) :
    popFinished cfg j (fuel + 1) s = popFinished cfg j fuel (s.popTop cfg j r) := by
  simp [popFinished,top,finished,popTop]

theorem popFinished_stop (settled : ∀ r ∈ Heap.top (s.readyQueue.get j), u32 (r.key cfg) ∉ s.canErase)
    (fuel : Nat) : popFinished cfg j fuel s = s := by
  cases fuel with
  | zero => rfl
  | succ fuel =>
    cases top : Heap.top (s.readyQueue.get j) with
    | none => simp [popFinished,top]
    | some r => simp [popFinished,top,settled r top]

theorem setGroup_quiet {g : Group} (quiet : ∀ t < (work.model j).length, ¬(groups j t).phase.Reducing)
    (settled : ¬g.phase.Reducing) (k : Nat) :
    ∀ t < (work.model j).length, ¬(setGroup groups j k g j t).phase.Reducing := by
  intro t inside
  by_cases here : t = k
  · subst here; rwa [setGroup_same]
  · rw [setGroup_other (by simp [here])]; exact quiet t inside

theorem popFinished_settled (cfg : Config) (s : ByteScheduler)
    (enough : (s.readyQueue.get j).length ≤ fuel) :
    ∀ r ∈ Heap.top ((popFinished cfg j fuel s).readyQueue.get j),
      u32 (r.key cfg) ∉ (popFinished cfg j fuel s).canErase := by
  induction fuel generalizing s with
  | zero =>
    have empty := List.length_eq_zero_iff.mp (Nat.le_zero.mp enough)
    simp [popFinished,empty,Heap.top]
  | succ fuel ih =>
    by_cases settled : ∀ r ∈ Heap.top (s.readyQueue.get j), u32 (r.key cfg) ∉ s.canErase
    · rwa [popFinished_stop settled]
    · push Not at settled
      obtain ⟨r,first,finished⟩ := settled
      have nonempty : s.readyQueue.get j ≠ [] := by
        intro empty; simp [empty,Heap.top] at first
      have length := Heap.pop_length s.clients.customCompare nonempty
      rw [popFinished_succ first finished]
      apply ih
      simp only [popTop,Table.get_put_same]
      omega

theorem popFinished_sound {j id : Nat} (distinct : work.DistinctCutKeys cfg)
    (sound : Sound cfg work groups s) (awake : Awake work groups s j id) (fuel : Nat) :
    ∃ after, Sound cfg work after (popFinished cfg j fuel s) ∧
      Awake work after (popFinished cfg j fuel s) j id ∧
      ∀ i ≠ j, Same i s (popFinished cfg j fuel s) ∧ after i = groups i := by
  induction fuel generalizing groups s with
  | zero => exact ⟨groups,sound,awake,fun i _ => ⟨Same.refl i s,rfl⟩⟩
  | succ fuel ih =>
    by_cases settled : ∀ r ∈ Heap.top (s.readyQueue.get j), u32 (r.key cfg) ∉ s.canErase
    · rw [popFinished_stop settled]
      exact ⟨groups,sound,awake,fun i _ => ⟨Same.refl i s,rfl⟩⟩
    · push Not at settled
      obtain ⟨r,top,finished⟩ := settled
      rw [popFinished_succ top finished]
      have member : r ∈ s.readyQueue.get j := List.mem_of_mem_head? top
      obtain ⟨rfl,allocated⟩ := sound.readyAllocated j r member
      obtain ⟨_,popped⟩ := popTop_sound distinct sound top
        (awake.quiet _ allocated.2) finished
      have kept (i : Nat) (other : i ≠ r.job) : Same i s (s.popTop cfg r.job r) :=
        ⟨(fun unfinished => unfinished),fun _ => Iff.rfl,Iff.rfl,by simp [popTop,other]⟩
      obtain ⟨after,sound',awake',others⟩ := ih popped
        ⟨awake.active,awake.own,awake.single,by simp [popTop],
          setGroup_quiet awake.quiet (by simp [Phase.Reducing]) _⟩
      refine ⟨after,sound',awake',fun i other => ?_⟩
      obtain ⟨again,same⟩ := others i other
      refine ⟨(kept i other).trans again,same.trans ?_⟩
      funext k
      exact setGroup_other (by simp [other])

theorem launch_sound (chunk : 1 ≤ cfg.chunkSize) (distinct : work.DistinctCutKeys cfg)
    (sound : Sound cfg work groups s) {r : TensorRef} (member : r ∈ s.readyQueue.get j)
    (quiet : ¬(groups j r.tensorId).phase.Reducing) (more : u32 (r.key cfg) ∉ s.canErase)
    (waiter : Nat) :
    ∃ chunks, (groups j r.tensorId).phase = .gathering chunks ∧
      Sound cfg work
        (setGroup groups j r.tensorId ((groups j r.tensorId).launch chunks waiter))
        (s.launch cfg j waiter r) := by
  have unfinished := sound.unfinished_of_member member
  obtain ⟨ofJob,allocated⟩ := sound.readyAllocated j r member
  have ready := (sound.readyFull j r.tensorId (ofJob ▸ allocated.2) unfinished).mp
    (List.mem_map_of_mem member)
  obtain ⟨w,i,t⟩ := r
  cases ofJob
  have layer : t < (work.model i).length := allocated.2
  have rep := sound.consistent.represents i t layer
  obtain ⟨chunks,phase⟩ : ∃ chunks, (groups i t).phase = .gathering chunks := by
    have open' := (sound.canErase i t layer unfinished).not.mp more
    cases shape : (groups i t).phase with
    | gathering chunks => exact ⟨chunks,rfl⟩
    | reducing => exact absurd (by simp [shape,Phase.Reducing]) quiet
    | served => exact absurd (by simp [Group.Closing,shape]) open'
  have queued : s.queue.get (TensorRef.key cfg ⟨w,i,t⟩) = _ := sound.queue i t layer unfinished
  have reduced : (s.clients.tensor ⟨w,i,t⟩).allreducedSize = chunks * cfg.chunkSize := by
    simpa [Group.progress,phase] using rep.allreducedSize w allocated.1
  have last := lastChunk_iff chunk (work.size_fits i t) (rep.size w allocated.1) reduced
    (rep.wellFormed.gathering chunks phase)
  refine ⟨chunks,phase,{ sound with
    consistent := ?_
    queue := fun j u inside open' => ?_
    readyFull := fun j u inside open' => ?_
    canErase := fun j u inside open' => ?_
    launches := fun entries member => ?_
    removed := fun j u inside open' v worker turn => ?_ }⟩
  · have launched := sound.consistent.launch layer phase ready.2 waiter
    rwa [← queued] at launched
  · refine (sound.queue j u inside open').trans ?_
    by_cases here : j = i ∧ u = t
    · obtain ⟨rfl,rfl⟩ := here
      simp [Group.entries]
    · rw [setGroup_other here]
  · refine (sound.readyFull j u inside open').trans ?_
    by_cases here : j = i ∧ u = t
    · obtain ⟨rfl,rfl⟩ := here
      simp
    · rw [setGroup_other here]
  · have old := sound.canErase j u inside open'
    simp only [launch,last]
    by_cases here : j = i ∧ u = t
    · obtain ⟨rfl,rfl⟩ := here
      simp only [Group.Closing,phase,iff_false] at old
      by_cases closing : Group.Last cfg.chunkSize (work.size j u) chunks
      · simp [closing,TensorRef.key,Group.Closing]
      · simpa [closing,Group.Closing] using old
    · have other : u32 (cfg.getKey j u) ≠ u32 (cfg.getKey i t) := fun equal =>
        here (distinct j u i t inside layer equal)
      rw [setGroup_other here]
      split
      · simpa [TensorRef.key,other] using old
      · exact old
  · rcases List.mem_append.mp member with earlier | now
    · exact sound.launches entries earlier
    · rw [List.mem_singleton.mp now,queued]
      exact whole_entries layer rep ready.2
  · have old := sound.removed j u inside open' v worker turn
    by_cases here : j = i ∧ u = t
    · obtain ⟨rfl,rfl⟩ := here
      simpa [launch] using old
    · rw [setGroup_other here]
      exact old

theorem leave_attended {j id : Nat} (awake : Awake work groups s j id)
    (others : ∀ i ≠ j, Attended work groups s i) (empty : s.readyQueue.get j = []) (i : Nat) :
    Attended work groups (s.leave j id) i := by
  by_cases here : i = j
  · subst here
    refine fun _ => Or.inl ⟨by simp [leave],empty,fun other known => ?_,awake.quiet⟩
    by_cases this : other = id
    · simp [leave,this] at known
    · simp only [leave,Table.erase_other _ this] at known
      exact this (awake.single other known)
  · refine (others i here).frame
      ⟨(fun unfinished => unfinished),fun k => ?_,by simp [leave,here],rfl⟩ fun _ => rfl
    by_cases this : k = id
    · subst this
      simpa [leave] using fun known => here (awake.own i known)
    · simp [leave,this]

theorem launch_attended {j id t : Nat} (awake : Awake work groups s j id)
    (others : ∀ i ≠ j, Attended work groups s i) (layer : t < (work.model j).length) (chunks : Nat)
    (r : TensorRef) (i : Nat) :
    Attended work (setGroup groups j t ((groups j t).launch chunks id)) (s.launch cfg j id r) i := by
  by_cases here : i = j
  · subst here
    refine fun _ => Or.inr ⟨id,awake.active,by simp [launch],fun other known => ?_,awake.ready,
      t,chunks,(groups i t).arrived,layer,by simp,fun u inside reducing => ?_⟩
    · by_contra this
      simp only [launch,Table.put_other _ this] at known
      exact this (awake.single other known)
    · by_contra this
      rw [setGroup_other (by simp [this])] at reducing
      exact awake.quiet u inside reducing
  · refine (others i here).frame ⟨(fun unfinished => unfinished),fun k => ?_,Iff.rfl,rfl⟩
      fun k => by rw [setGroup_other (by simp [here])]
    by_cases this : k = id
    · subst this
      simpa [launch,Ne.symm here] using fun known => here (awake.own i known)
    · simp [launch,this]

/-- From the head of its loop, `kick_off` starts the next chunk or ends. -/
theorem kickOff_sound {j id : Nat} (chunk : 1 ≤ cfg.chunkSize) (distinct : work.DistinctCutKeys cfg)
    (sound : Sound cfg work groups s) (awake : Awake work groups s j id)
    (others : ∀ i ≠ j, Attended work groups s i) :
    ∃ after, Sound cfg work after (s.kickOff cfg j id) ∧
      ∀ i, Attended work after (s.kickOff cfg j id) i := by
  by_cases nothing : s.readyQueue.get j = []
  · rw [kickOff,if_pos (Or.inl nothing)]
    exact ⟨groups,{ sound with },leave_attended awake others nothing⟩
  · rw [kickOff,if_neg (not_or.mpr ⟨nothing,not_not.mpr awake.active⟩)]
    have settled := popFinished_settled cfg s (Nat.le_refl (s.readyQueue.get j).length)
    obtain ⟨after,sound,awake,kept⟩ :=
      popFinished_sound distinct sound awake (s.readyQueue.get j).length
    have others (i : Nat) (other : i ≠ j) :
        Attended work after (popFinished cfg j (s.readyQueue.get j).length s) i :=
      (others i other).frame (kept i other).1 fun k => by rw [(kept i other).2]
    generalize popFinished cfg j (s.readyQueue.get j).length s = t at *
    dsimp only
    cases top : Heap.top (t.readyQueue.get j) with
    | none =>
      have empty : t.readyQueue.get j = [] := List.head?_eq_none_iff.mp top
      exact ⟨after,{ sound with },leave_attended awake others empty⟩
    | some r =>
      have member : r ∈ t.readyQueue.get j := List.mem_of_mem_head? top
      obtain ⟨ofJob,allocated⟩ := sound.readyAllocated j r member
      have layer : r.tensorId < (work.model j).length := ofJob ▸ allocated.2
      obtain ⟨chunks,_,launched⟩ := launch_sound chunk distinct sound member
        (awake.quiet _ layer) (settled r top) id
      exact ⟨_,launched,launch_attended awake others layer chunks r⟩

theorem awaited_none {id : Nat} (sound : Sound cfg work groups s) (layer : t < (work.model j).length)
    (phase : (groups j t).phase = .reducing chunks id outstanding)
    (quiet : s.clients.awaits id = false) : outstanding = [] := by
  rw [List.eq_nil_iff_forall_not_mem]
  intro w member
  have called := (sound.consistent.represents j t layer).calls.symm.subset
    (show (⟨id,⟨⟨w,j,t⟩,(groups j t).turn⟩⟩ : Call) ∈ _ by simp [Group.calls,phase,member])
  have none := List.any_eq_false.mp quiet _ (List.mem_of_mem_filter called)
  simp at none

theorem settle_sound {id : Nat} (sound : Sound cfg work groups s) (layer : t < (work.model j).length)
    (phase : (groups j t).phase = .reducing chunks id []) :
    Sound cfg work
      (setGroup groups j t ((groups j t).settle cfg.chunkSize (work.size j t) chunks)) s := by
  refine { sound with
    consistent := sound.consistent.settle phase
    queue := fun i k inside open' => (sound.queue i k inside open').trans ?_
    readyFull := fun i k inside open' => (sound.readyFull i k inside open').trans ?_
    canErase := fun i k inside open' => (sound.canErase i k inside open').trans ?_
    removed := fun i k inside open' w worker turn =>
      (sound.removed i k inside open' w worker turn).trans ?_ }
  all_goals
    by_cases here : i = j ∧ k = t
    case neg => rw [setGroup_other here]
    obtain ⟨rfl,rfl⟩ := here
    rw [setGroup_same]
  · simp [Group.entries]
  · simp
  · by_cases last : Group.Last cfg.chunkSize (work.size i k) chunks
    · simp [Group.Closing,phase,last]
    · simp [Group.Closing,phase,last]
  · rfl

theorem complete_sound (sound : Sound cfg work groups s) (called : call ∈ s.clients.calls) :
    ∃ j t w chunks waiter outstanding, t < (work.model j).length ∧
      (groups j t).phase = .reducing chunks waiter outstanding ∧
      Sound cfg work (setGroup groups j t ((groups j t).answer chunks waiter outstanding w))
        { s with clients := s.clients.answer cfg.chunkSize call } := by
  obtain ⟨j,t,w,chunks,waiter,outstanding,layer,phase,_,_,consistent⟩ :=
    sound.consistent.answer called
  refine ⟨j,t,w,chunks,waiter,outstanding,layer,phase,{ sound with
    consistent := consistent
    queue := fun i k inside open' => (sound.queue i k inside open').trans ?_
    readyFull := fun i k inside open' => (sound.readyFull i k inside open').trans ?_
    canErase := fun i k inside open' => (sound.canErase i k inside open').trans ?_
    cleared := fun entries member => ⟨(sound.cleared entries member).1,fun e inside =>
      Clients.mem_answer_served _ _ _ ((sound.cleared entries member).2 e inside)⟩
    finished := fun w j finished =>
      have ⟨gone,known,all⟩ := sound.finished w j finished
      ⟨gone,known,fun t inside => ⟨(all t inside).1,fun turn before =>
        Clients.mem_answer_served _ _ _ ((all t inside).2 turn before)⟩⟩
    removed := fun i k inside open' w worker turn =>
      (sound.removed i k inside open' w worker turn).trans ?_ }⟩
  all_goals
    by_cases here : i = j ∧ k = t
    case neg => rw [setGroup_other here]
    obtain ⟨rfl,rfl⟩ := here
    rw [setGroup_same]
  · simp [Group.entries]
  · simp
  · simp [Group.Closing,phase]
  · rfl

theorem finish_sound (sound : Sound cfg work groups s) (may : s.clients.MayFinish work w j) :
    Sound cfg work groups ({ s with clients := s.clients.finish w j }.cleanupForJob j) := by
  have still (i : Nat)
      (open' : Unfinished ({ s with clients := s.clients.finish w j }.cleanupForJob j) i) :
      i ≠ j ∧ s.Unfinished i := by
    refine ⟨?_,fun v => ?_⟩
    · rintro rfl
      simpa [cleanupForJob,Clients.finish] using open' w
    · by_contra finished
      have := open' v
      simp [cleanupForJob,Clients.finish] at this
      simp [this] at finished
  refine { sound with
    consistent := sound.consistent.finish w j
    queue := fun i k layer open' => ?_
    readyDistinct := fun i => ?_
    readyAllocated := fun i r member => ?_
    readyFull := fun i k layer open' => ?_
    canErase := fun i k layer open' => sound.canErase i k layer (still i open').2
    removed := fun i k layer open' => sound.removed i k layer (still i open').2
    finished := fun v i finished => ?_ }
  · obtain ⟨other,before⟩ := still i open'
    have old := sound.queue i k layer before
    simp only [cleanupForJob,Table.get] at old ⊢
    cases queued : s.queue (cfg.getKey i k) with
    | none => simpa [queued] using old
    | some entries =>
      cases entries with
      | nil => simpa [queued] using old
      | cons e rest =>
        simp only [queued,Option.getD_some] at old ⊢
        have member : e ∈ (groups i k).entries i k := old ▸ List.mem_cons_self
        obtain ⟨ofJob,_⟩ := Group.mem_entries.mp member
        simpa [ofJob,other] using old
  · by_cases here : i = j
    · subst here
      rw [show (cleanupForJob _ i).readyQueue.get i = [] from Table.get_erase_same _ _]
      exact List.nodup_nil
    · simpa [cleanupForJob,here] using sound.readyDistinct i
  · by_cases here : i = j
    · subst here
      rw [show (cleanupForJob _ i).readyQueue.get i = [] from Table.get_erase_same _ _] at member
      cases member
    · simp only [cleanupForJob,Table.get_erase_other _ here] at member
      exact sound.readyAllocated i r member
  · obtain ⟨other,before⟩ := still i open'
    simpa [cleanupForJob,other] using sound.readyFull i k layer before
  · by_cases earlier : s.clients.finished v i = true
    · obtain ⟨gone,known,all⟩ := sound.finished v i earlier
      refine ⟨?_,known,all⟩
      by_cases here : i = j
      · simp [cleanupForJob,here]
      · simpa [cleanupForJob,here] using gone
    · obtain ⟨rfl,rfl⟩ : v = w ∧ i = j := by
        by_contra other
        simp [cleanupForJob,Clients.finish,other] at finished
        exact earlier finished
      refine ⟨by simp [cleanupForJob],may.1,fun t layer =>
        ⟨fun u worker => sound.consistent.all_enqueued may layer worker,fun turn before => ?_⟩⟩
      have count := (sound.consistent.represents i t layer).served v may.1 turn
      rw [if_pos (Nat.lt_of_lt_of_le before (may.2.2 t layer).2)] at count
      exact List.one_le_count_iff.mp count.ge

theorem finish_attended (attended : Attended work groups s i) (w j : Nat) :
    Attended work groups ({ s with clients := s.clients.finish w j }.cleanupForJob j) i := by
  intro unfinished
  have other : i ≠ j := by
    rintro rfl
    simpa [cleanupForJob,Clients.finish] using unfinished w
  refine attended.frame ⟨fun _ v => ?_,fun _ => Iff.rfl,by simp [cleanupForJob,other],
    by simp [cleanupForJob,other]⟩ (fun _ => rfl) unfinished
  simpa [cleanupForJob,Clients.finish,other] using unfinished v

def Inv (cfg : Config) (work : Workload) (s : ByteScheduler) : Prop :=
  ∃ groups, Sound cfg work groups s ∧ (∀ j, Attended work groups s j) ∧
    ∀ id j, s.loops id = some j → id < s.coroutines

/-- No worker enqueues a tensor whose full group is still in the queue. -/
def Room (cfg : Config) (work : Workload) : Label → ByteScheduler → Prop
  | .enqueue r,s => (s.queue.get (r.key cfg)).length < work.numWorkersAllocated r.job
  | _,_ => True

instance (cfg : Config) (work : Workload) (l : Label) (s : ByteScheduler) :
    Decidable (Room cfg work l s) :=
  match l with
  | .enqueue r =>
    inferInstanceAs (Decidable ((s.queue.get (r.key cfg)).length < work.numWorkersAllocated r.job))
  | .complete _ | .resume _ | .finish _ _ => isTrue trivial

theorem initial_inv (cfg : Config) (work : Workload) : Inv cfg work (initial work) :=
  ⟨_,initial_sound cfg work,
    fun _ _ => Or.inl ⟨by simp [initial],rfl,(fun _ known => by cases known),fun _ _ => id⟩,
    fun _ _ known => by cases known⟩

theorem kickOff_inv {j id : Nat} (chunk : 1 ≤ cfg.chunkSize) (distinct : work.DistinctCutKeys cfg)
    (sound : Sound cfg work groups s) (awake : Awake work groups s j id)
    (others : ∀ i ≠ j, Attended work groups s i) (known : id < s.coroutines)
    (fresh : ∀ id j, s.loops id = some j → id < s.coroutines) :
    Inv cfg work (s.kickOff cfg j id) := by
  obtain ⟨after,sound',attended⟩ := kickOff_sound chunk distinct sound awake others
  refine ⟨after,sound',attended,fun other i found => ?_⟩
  have kept := kickOff_kept cfg s j id
  rw [kept.coroutines]
  rcases kept.loops other i found with ⟨rfl,_⟩ | old
  · exact known
  · exact fresh other i old

theorem setGroup_arrive_phase (groups : Nat → Nat → Group) (r : TensorRef) (j t : Nat) :
    (setGroup groups r.job r.tensorId ((groups r.job r.tensorId).arrive r.machine) j t).phase =
      (groups j t).phase := by
  by_cases here : j = r.job ∧ t = r.tensorId
  · obtain ⟨rfl,rfl⟩ := here; simp
  · rw [setGroup_other here]

theorem Sound.room (sound : Sound cfg work groups s) {r : TensorRef}
    (may : s.clients.MayEnqueue work r)
    (room : (s.queue.get (r.key cfg)).length < work.numWorkersAllocated r.job) :
    (groups r.job r.tensorId).arrived.length < work.numWorkersAllocated r.job ∧
      ((s.push cfg r).queue.get (r.key cfg)).length =
        (groups r.job r.tensorId).arrived.length + 1 := by
  have queued : s.queue.get (r.key cfg) = _ :=
    sound.queue r.job r.tensorId may.1.2 (sound.unfinished_of_enqueue may)
  constructor
  · simpa [queued,Group.entries] using room
  · simp [push,queued,Group.entries]

def activate (s : ByteScheduler) (j : Nat) : ByteScheduler :=
  { s with activeJobs := insert j s.activeJobs, coroutines := s.coroutines + 1 }

theorem enqueue_eq (cfg : Config) (work : Workload) (s : ByteScheduler) (r : TensorRef) :
    s.enqueue cfg work r =
      if ((s.push cfg r).queue.get (r.key cfg)).length = work.numWorkersAllocated r.job then
        if r.job ∈ s.activeJobs then (s.push cfg r).ready r
        else (((s.push cfg r).ready r).activate r.job).kickOff cfg r.job s.coroutines
      else s.push cfg r := rfl

theorem ready_others {r : TensorRef} (attended : ∀ j, Attended work groups s j) (i : Nat)
    (other : i ≠ r.job) :
    Attended work (setGroup groups r.job r.tensorId ((groups r.job r.tensorId).arrive r.machine))
      ((s.push cfg r).ready r) i :=
  (attended i).frame ⟨(fun open' => open'),fun _ => Iff.rfl,Iff.rfl,by simp [ready,push,other]⟩
    (setGroup_arrive_phase groups r i)

/-- The enqueue that completes a group of a job without a loop starts one. -/
theorem enqueue_head (distinct : work.DistinctCutKeys cfg) (sound : Sound cfg work groups s)
    (attended : ∀ j, Attended work groups s j) (fresh : ∀ id j, s.loops id = some j → id < s.coroutines)
    {r : TensorRef} (may : s.clients.MayEnqueue work r)
    (full : (groups r.job r.tensorId).arrived.length + 1 = work.numWorkersAllocated r.job)
    (inactive : r.job ∉ s.activeJobs) :
    let after := setGroup groups r.job r.tensorId ((groups r.job r.tensorId).arrive r.machine)
    let queued := ((s.push cfg r).ready r).activate r.job
    Sound cfg work after queued ∧ Awake work after queued r.job s.coroutines ∧
      (∀ i ≠ r.job, Attended work after queued i) ∧ s.readyQueue.get r.job = [] := by
  have sound' := ready_sound distinct sound may full
  rcases attended r.job (sound.unfinished_of_enqueue may) with idle | ⟨id,running⟩
  · refine ⟨{ sound' with },⟨by simp [activate],fun i known => ?_,
      fun other known => absurd known (idle.none other),by simp [activate,ready],
      fun t inside => ?_⟩,fun i other => ?_,idle.empty⟩
    · exact absurd (fresh _ _ known) (Nat.lt_irrefl _)
    · rw [setGroup_arrive_phase]
      exact idle.quiet t inside
    · exact (ready_others attended i other).frame
        ⟨(fun open' => open'),fun _ => Iff.rfl,by simp [activate,other],rfl⟩ fun _ => rfl
  · exact absurd running.active inactive

theorem enqueue_inv (chunk : 1 ≤ cfg.chunkSize) (distinct : work.DistinctCutKeys cfg)
    (inv : Inv cfg work s) {r : TensorRef} (may : s.clients.MayEnqueue work r)
    (room : (s.queue.get (r.key cfg)).length < work.numWorkersAllocated r.job) :
    Inv cfg work (s.enqueue cfg work r) := by
  obtain ⟨groups,sound,attended,fresh⟩ := inv
  obtain ⟨before,length⟩ := sound.room may room
  rw [enqueue_eq]
  split
  case isTrue full =>
    rw [length] at full
    split
    case isTrue active =>
      refine ⟨_,ready_sound distinct sound may full,fun i => ?_,fresh⟩
      by_cases here : i = r.job
      · subst here
        rcases attended r.job (sound.unfinished_of_enqueue may) with idle | ⟨id,running⟩
        · exact absurd active idle.inactive
        · exact fun _ => Or.inr ⟨id,active,running.loop,running.single,by simp [ready],by
            simpa only [setGroup_arrive_phase] using running.current⟩
      · exact ready_others attended i here
    case isFalse inactive =>
      obtain ⟨sound',awake,others,_⟩ :=
        enqueue_head distinct sound attended fresh may full inactive
      exact kickOff_inv chunk distinct sound' awake others (Nat.lt_succ_self _) fun id j known =>
        Nat.lt_succ_of_lt (fresh id j known)
  case isFalse partly =>
    rw [length] at partly
    refine ⟨_,push_partial_sound distinct sound may (by omega),fun i => ?_,fresh⟩
    exact (attended i).frame ⟨(fun open' => open'),fun _ => Iff.rfl,Iff.rfl,rfl⟩
      (setGroup_arrive_phase groups r i)

theorem resume_head {id : Nat} (sound : Sound cfg work groups s)
    (attended : ∀ j, Attended work groups s j) (known : s.loops id = some j)
    (quiet : s.clients.awaits id = false) (ready : s.readyQueue j ≠ none) :
    ∃ after, Sound cfg work after s ∧ Awake work after s j id ∧
      ∀ i ≠ j, Attended work after s i := by
  rcases attended j (sound.unfinished_of_ready ready) with idle | ⟨other,running⟩
  · exact absurd known (idle.none id)
  · cases running.single id known
    obtain ⟨t,chunks,outstanding,layer,phase,alone⟩ := running.current
    cases awaited_none sound layer phase quiet
    refine ⟨_,settle_sound sound layer phase,
      ⟨running.active,fun i also => ?_,running.single,running.ready,fun u inside => ?_⟩,
      fun i other => ?_⟩
    · exact (Option.some.inj (known.symm.trans also)).symm
    · by_cases here : u = t
      · subst here
        rw [setGroup_same,Group.settle_phase]
        split <;> simp [Phase.Reducing]
      · rw [setGroup_other (by simp [here])]
        exact fun reducing => here (alone u inside reducing)
    · exact (attended i).frame (Same.refl i s) fun k => by rw [setGroup_other (by simp [other])]

theorem resume_inv {id : Nat} (chunk : 1 ≤ cfg.chunkSize) (distinct : work.DistinctCutKeys cfg)
    (inv : Inv cfg work s) (known : s.loops id = some j) (quiet : s.clients.awaits id = false)
    (ready : s.readyQueue j ≠ none) : Inv cfg work (s.kickOff cfg j id) := by
  obtain ⟨groups,sound,attended,fresh⟩ := inv
  obtain ⟨after,sound',awake,others⟩ := resume_head sound attended known quiet ready
  exact kickOff_inv chunk distinct sound' awake others (fresh id j known) fresh

theorem complete_inv (inv : Inv cfg work s) (called : call ∈ s.clients.calls) :
    Inv cfg work { s with clients := s.clients.answer cfg.chunkSize call } := by
  obtain ⟨groups,sound,attended,fresh⟩ := inv
  obtain ⟨j,t,w,chunks,waiter,outstanding,layer,phase,sound'⟩ := complete_sound sound called
  refine ⟨_,sound',fun i => ?_,fresh⟩
  by_cases here : i = j
  · subst here
    intro unfinished
    rcases attended i unfinished with idle | ⟨id,running⟩
    · exact absurd (by simp [phase,Phase.Reducing]) (idle.quiet t layer)
    · obtain ⟨k,rounds,rest,inside,shape,alone⟩ := running.current
      cases alone t layer (by simp [phase,Phase.Reducing])
      rw [phase] at shape
      cases shape
      refine Or.inr ⟨waiter,running.active,running.loop,running.single,running.ready,
        t,chunks,outstanding.erase w,layer,by simp,fun u within reducing => ?_⟩
      by_contra other
      rw [setGroup_other (by simp [other])] at reducing
      exact other (alone u within reducing)
  · exact (attended i).frame ⟨(fun open' => open'),fun _ => Iff.rfl,Iff.rfl,rfl⟩
      fun k => by rw [setGroup_other (by simp [here])]

theorem step_inv (chunk : 1 ≤ cfg.chunkSize) (distinct : work.DistinctCutKeys cfg)
    (l : Label) (s t : ByteScheduler) (inv : Inv cfg work s) (room : Room cfg work l s)
    (taken : step cfg work l s = some t) : Inv cfg work t := by
  cases l with
  | enqueue r =>
    simp only [step] at taken
    split at taken
    · rename_i may; cases taken; exact enqueue_inv chunk distinct inv may room
    · cases taken
  | complete call =>
    obtain ⟨clients,completed,taken⟩ := Option.bind_eq_some_iff.mp taken
    obtain ⟨called,rfl⟩ := Clients.complete_some completed
    cases taken
    exact complete_inv inv called
  | resume id =>
    obtain ⟨j,known,taken⟩ := Option.bind_eq_some_iff.mp taken
    split at taken
    · rename_i allowed
      cases taken
      exact resume_inv chunk distinct inv known allowed.1 allowed.2.1
    · cases taken
  | finish w j =>
    simp only [step] at taken
    split at taken
    · rename_i may
      cases taken
      obtain ⟨groups,sound,attended,fresh⟩ := inv
      exact ⟨groups,finish_sound sound may,fun i => finish_attended (attended i) w j,fresh⟩
    · cases taken

/-- Every round works on one entry of every worker of its job, all of the same turn; so does
every clear, and all of these were reduced completely. Each enqueue was reduced completely once,
or not yet and waits for a round or its end; and until its job is torn down it is either in the
queue or was cleared once. A job without a loop has no full group. -/
structure Lossless (cfg : Config) (work : Workload) (s : ByteScheduler) : Prop where
  launches : ∀ entries ∈ s.launches, work.WholeGroup entries
  cleared : ∀ entries ∈ s.cleared, work.WholeGroup entries ∧ ∀ e ∈ entries, e ∈ s.clients.served
  once : ∀ r, work.Allocates r → ∀ turn < s.clients.enqueued r,
    s.clients.served.count ⟨r,turn⟩ = 1 ∧ s.clients.reduced ⟨r,turn⟩ = work.size r.job r.tensorId ∨
      s.clients.served.count ⟨r,turn⟩ = 0 ∧
        (⟨r,turn⟩ ∈ s.queue.get (r.key cfg) ∨ ∃ waiter, ⟨waiter,⟨r,turn⟩⟩ ∈ s.clients.calls)
  kept : ∀ r, work.Allocates r → s.Unfinished r.job → ∀ turn < s.clients.enqueued r,
    s.cleared.flatten.count ⟨r,turn⟩ + (s.queue.get (r.key cfg)).count ⟨r,turn⟩ = 1
  live : ∀ r, work.Allocates r → s.Unfinished r.job → (∀ id, s.loops id ≠ some r.job) →
    (s.queue.get (r.key cfg)).length < work.numWorkersAllocated r.job

theorem Inv.iter_le (inv : Inv cfg work s) {r : TensorRef} (allocated : work.Allocates r) :
    (s.clients.tensor r).iter ≤ s.clients.enqueued r := by
  obtain ⟨groups,sound,_⟩ := inv
  obtain ⟨w,j,t⟩ := r
  have rep := sound.consistent.represents j t allocated.2
  rw [rep.iter w allocated.1,rep.enqueued w allocated.1]
  cases ended : (groups j t).ended cfg.chunkSize (work.size j t) w with
  | false => simp
  | true =>
    have full := rep.wellFormed.full (by
      intro first
      simp [Group.ended,first] at ended)
    simp [rep.mem_arrived full allocated.1]

theorem Inv.once (inv : Inv cfg work s) {r : TensorRef} (allocated : work.Allocates r)
    (before : turn < s.clients.enqueued r) :
    s.clients.served.count ⟨r,turn⟩ = 1 ∧ s.clients.reduced ⟨r,turn⟩ = work.size r.job r.tensorId ∨
      s.clients.served.count ⟨r,turn⟩ = 0 ∧
        (⟨r,turn⟩ ∈ s.queue.get (r.key cfg) ∨ ∃ waiter, ⟨waiter,⟨r,turn⟩⟩ ∈ s.clients.calls) := by
  obtain ⟨groups,sound,_⟩ := inv
  obtain ⟨w,j,t⟩ := r
  obtain ⟨worker,layer⟩ := allocated
  have rep := sound.consistent.represents j t layer
  have count := rep.served w worker turn
  have reduced := rep.reduced w worker turn
  have iter := rep.iter w worker
  have enqueued := rep.enqueued w worker
  by_cases passed : turn < (s.clients.tensor ⟨w,j,t⟩).iter
  · rw [if_pos passed] at count reduced
    exact Or.inl ⟨count,reduced⟩
  · rw [if_neg passed] at count
    refine Or.inr ⟨count,?_⟩
    have arrived : w ∈ (groups j t).arrived := by
      by_contra absent
      rw [if_neg absent] at enqueued
      omega
    rw [if_pos arrived] at enqueued
    have now : turn = (groups j t).turn := by omega
    by_cases unfinished : s.Unfinished j
    · have queued : s.queue.get (TensorRef.key cfg ⟨w,j,t⟩) = _ :=
        sound.queue j t layer unfinished
      rw [queued]
      exact Or.inl (Group.mem_entries.mpr ⟨rfl,rfl,now,arrived⟩)
    · -- a worker has ended this last pass, so the others have calls of its last round
      simp only [Unfinished,not_forall,Bool.not_eq_false] at unfinished
      obtain ⟨v,finished⟩ := unfinished
      obtain ⟨_,known,all⟩ := sound.finished v j finished
      have total := (all t layer).1 w worker
      have served := List.count_pos_iff.mpr ((all t layer).2 (groups j t).turn (by omega))
      have past : (groups j t).ended cfg.chunkSize (work.size j t) v = true := by
        by_contra more
        have ended := rep.iter v known
        rw [Bool.not_eq_true] at more
        rw [more,Bool.toNat_false,Nat.add_zero] at ended
        rw [rep.served v known,ended] at served
        simp at served
      have notPast : (groups j t).ended cfg.chunkSize (work.size j t) w = false := by
        by_contra also
        simp only [Bool.not_eq_false] at also
        rw [also] at iter
        simp only [Bool.toNat_true] at iter
        omega
      unfold Group.ended at past notPast
      cases phase : (groups j t).phase with
      | gathering => simp [phase] at past
      | served => simp [phase] at notPast
      | reducing chunks waiter outstanding =>
        simp only [phase,decide_eq_true_eq,decide_eq_false_iff_not] at past notPast
        have waiting : w ∈ outstanding := by
          by_contra absent
          exact notPast ⟨past.1,absent⟩
        refine Or.inr ⟨waiter,List.mem_of_mem_filter (rep.calls.symm.subset ?_)⟩
        simpa [Group.calls,phase,now] using waiting

theorem Inv.kept (inv : Inv cfg work s) {r : TensorRef} (allocated : work.Allocates r)
    (unfinished : s.Unfinished r.job) (before : turn < s.clients.enqueued r) :
    s.cleared.flatten.count ⟨r,turn⟩ + (s.queue.get (r.key cfg)).count ⟨r,turn⟩ = 1 := by
  obtain ⟨groups,sound,_⟩ := inv
  obtain ⟨w,j,t⟩ := r
  obtain ⟨worker,layer⟩ := allocated
  have rep := sound.consistent.represents j t layer
  have queued : s.queue.get (TensorRef.key cfg ⟨w,j,t⟩) = _ := sound.queue j t layer unfinished
  rw [rep.enqueued w worker] at before
  rw [sound.removed j t layer unfinished w worker turn,queued,
    Group.count_entries rep.wellFormed.distinct]
  simp only [Group.mem_entries,true_and]
  by_cases arrived : w ∈ (groups j t).arrived
  · rw [if_pos arrived] at before
    rcases Nat.lt_or_eq_of_le (Nat.le_of_lt_succ before) with earlier | now
    · simp [earlier,earlier.ne]
    · simp [now,arrived]
  · rw [if_neg arrived] at before
    simp [arrived,show turn < (groups j t).turn from before]

theorem Inv.live (inv : Inv cfg work s) {r : TensorRef} (allocated : work.Allocates r)
    (unfinished : s.Unfinished r.job) (none : ∀ id, s.loops id ≠ some r.job) :
    (s.queue.get (r.key cfg)).length < work.numWorkersAllocated r.job := by
  obtain ⟨groups,sound,attended,_⟩ := inv
  obtain ⟨w,j,t⟩ := r
  obtain ⟨worker,layer⟩ := allocated
  have wellFormed := (sound.consistent.represents j t layer).wellFormed
  have queued : s.queue.get (TensorRef.key cfg ⟨w,j,t⟩) = _ := sound.queue j t layer unfinished
  have most : (groups j t).arrived.length ≤ work.numWorkersAllocated j :=
    (wellFormed.distinct.subperm wellFormed.inside).length_le
  have some : 0 < work.numWorkersAllocated j := List.length_pos_of_mem worker
  rw [queued,Group.entries,List.length_map]
  refine Nat.lt_of_le_of_ne most fun full => ?_
  rcases attended j unfinished with idle | ⟨id,running⟩
  · have ready := (sound.readyFull j t layer unfinished).mpr
      ⟨List.ne_nil_of_length_pos (full ▸ some),full⟩
    rw [idle.empty] at ready
    cases ready
  · exact none id running.loop

theorem Inv.lossless (inv : Inv cfg work s) : Lossless cfg work s := by
  refine ⟨?_,?_,fun _ allocated _ => inv.once allocated,
    fun _ allocated unfinished _ => inv.kept allocated unfinished,fun _ => inv.live⟩
  · obtain ⟨groups,sound,_⟩ := inv; exact sound.launches
  · obtain ⟨groups,sound,_⟩ := inv; exact sound.cleared

/-- In every run in which no worker enqueues a tensor whose full group is still queued. -/
theorem chunked_passes_lossless (cfg : Config) (work : Workload) (chunk : 1 ≤ cfg.chunkSize)
    (distinct : work.DistinctCutKeys cfg) (s : ByteScheduler)
    (run : Runs.Run (step cfg work) (Room cfg work) (initial work) s) : Lossless cfg work s :=
  (run.invariant (step_inv chunk distinct) (initial_inv cfg work)).lossless

def firstPass : List Label :=
  [.enqueue ⟨0,0,0⟩,.enqueue ⟨1,0,0⟩,.complete ⟨0,⟨⟨0,0,0⟩,0⟩⟩,.complete ⟨0,⟨⟨1,0,0⟩,0⟩⟩,
    .resume 0,.complete ⟨0,⟨⟨0,0,0⟩,0⟩⟩]

theorem chunked_passes_lossless_twice :
    ∃ s, Runs.Run (step oneLayerConfig oneLayer) (Room oneLayerConfig oneLayer)
        (initial oneLayer) s ∧
      s.launches.length = 3 ∧ s.cleared.length = 1 ∧ Lossless oneLayerConfig oneLayer s := by
  have ends : (Runs.exec (step oneLayerConfig oneLayer) (Room oneLayerConfig oneLayer)
      (firstPass ++ [.complete ⟨0,⟨⟨1,0,0⟩,0⟩⟩,.resume 0,.enqueue ⟨1,0,0⟩,.enqueue ⟨0,0,0⟩])
      (initial oneLayer)).map (fun s => (s.launches.length,s.cleared.length)) = some (3,1) := by
    decide
  obtain ⟨s,run,view⟩ := Runs.exists_run_of_exec ends
  obtain ⟨launches,cleared⟩ := Prod.mk.inj view
  exact ⟨s,run,launches,cleared,
    chunked_passes_lossless oneLayerConfig oneLayer (by decide) oneLayer_distinctCutKeys s run⟩

/-- The faster worker enqueues the next iteration while the loop waits for the slower one, and
`queue[key].clear()` removes its entry. -/
theorem early_enqueue_is_cleared :
    ∃ s, Runs.Run (step oneLayerConfig oneLayer) Runs.anyStep (initial oneLayer) s ∧
      ¬Lossless oneLayerConfig oneLayer s := by
  have ends : (Runs.exec (step oneLayerConfig oneLayer) Runs.anyStep
      (firstPass ++ [.enqueue ⟨0,0,0⟩,.complete ⟨0,⟨⟨1,0,0⟩,0⟩⟩,.resume 0]) (initial oneLayer)).map
      (fun s => (s.cleared,s.clients.served)) =
      some ([[⟨⟨0,0,0⟩,0⟩,⟨⟨1,0,0⟩,0⟩,⟨⟨0,0,0⟩,1⟩]],[⟨⟨0,0,0⟩,0⟩,⟨⟨1,0,0⟩,0⟩]) := by decide
  obtain ⟨s,run,view⟩ := Runs.exists_run_of_exec ends
  refine ⟨s,run,fun lossless => ?_⟩
  obtain ⟨cleared,served⟩ := Prod.mk.inj view
  have lost := (lossless.cleared _ (cleared ▸ List.mem_singleton_self _)).2 ⟨⟨0,0,0⟩,1⟩ (by simp)
  simp [served] at lost

end ByteScheduler
end CloudSim
