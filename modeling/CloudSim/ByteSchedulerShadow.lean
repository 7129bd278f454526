import CloudSim.ByteSchedulerOrder

/-! Enqueues that find no room in `ByteScheduler`: their entries are cleared, and nothing else comes
of them. -/
namespace CloudSim.ByteScheduler
variable {cfg : Config} {work : Workload} {s t v : ByteScheduler}

/-- `v` is `s` without the enqueues that found no room: their passes had ended, and the clears
that are due remove them. -/
structure Shadow (cfg : Config) (work : Workload) (s v : ByteScheduler) : Prop where
  tensor : v.clients.tensor = s.clients.tensor
  calls : v.clients.calls = s.clients.calls
  torn : v.clients.finished = s.clients.finished
  ready : v.readyQueue = s.readyQueue
  active : v.activeJobs = s.activeJobs
  canErase : v.canErase = s.canErase
  loops : v.loops = s.loops
  coroutines : v.coroutines = s.coroutines
  enqueued : ∀ r, v.clients.enqueued r = s.clients.enqueued r ∨
    v.clients.enqueued r + 1 = s.clients.enqueued r
  queue : ∀ j t, t < (work.model j).length → ∃ extra,
    s.queue.get (cfg.getKey j t) = v.queue.get (cfg.getKey j t) ++ extra ∧
      (extra ≠ [] → u32 (cfg.getKey j t) ∈ s.canErase ∧ v.queue.get (cfg.getKey j t) ≠ [])

namespace Shadow

theorem refl (cfg : Config) (work : Workload) (s : ByteScheduler) : Shadow cfg work s s :=
  ⟨rfl,rfl,rfl,rfl,rfl,rfl,rfl,rfl,fun _ => Or.inl rfl,fun _ _ _ => ⟨[],by simp⟩⟩

theorem customCompare (shadow : Shadow cfg work s v) :
    v.clients.customCompare = s.clients.customCompare := by
  rw [customCompare_eq,customCompare_eq,shadow.tensor]

theorem queue_of_open (shadow : Shadow cfg work s v) {r : TensorRef} (allocated : work.Allocates r)
    (more : u32 (r.key cfg) ∉ s.canErase) : v.queue.get (r.key cfg) = s.queue.get (r.key cfg) := by
  obtain ⟨extra,split,due⟩ := shadow.queue r.job r.tensorId allocated.2
  have none : extra = [] := by
    by_contra some
    exact more (due some).1
  rw [none,List.append_nil] at split
  exact split.symm

theorem popTop (distinct : work.DistinctCutKeys cfg) (shadow : Shadow cfg work s v) (j : Nat)
    {r : TensorRef} (allocated : work.Allocates r) :
    Shadow cfg work (s.popTop cfg j r) (v.popTop cfg j r) := by
  refine ⟨shadow.tensor,shadow.calls,shadow.torn,?_,shadow.active,?_,shadow.loops,
    shadow.coroutines,shadow.enqueued,fun i k inside => ?_⟩
  · simp only [ByteScheduler.popTop,shadow.ready,shadow.customCompare]
  · simp only [ByteScheduler.popTop,shadow.canErase]
  · by_cases here : i = r.job ∧ k = r.tensorId
    · obtain ⟨rfl,rfl⟩ := here
      exact ⟨[],by simp [ByteScheduler.popTop,TensorRef.key]⟩
    · obtain ⟨extra,split,due⟩ := shadow.queue i k inside
      have other : u32 (cfg.getKey i k) ≠ u32 (r.key cfg) := fun same =>
        here (distinct i k r.job r.tensorId inside allocated.2 same)
      have apart : cfg.getKey i k ≠ r.key cfg := fun same => other (congrArg u32 same)
      refine ⟨extra,by simpa [ByteScheduler.popTop,apart] using split,fun some => ?_⟩
      simpa [ByteScheduler.popTop,apart,other] using due some

theorem popFinished (distinct : work.DistinctCutKeys cfg) (shadow : Shadow cfg work s v) (j fuel : Nat)
    (allocated : ∀ r ∈ s.readyQueue.get j, work.Allocates r) :
    Shadow cfg work (popFinished cfg j fuel s) (popFinished cfg j fuel v) := by
  induction fuel generalizing s v with
  | zero => exact shadow
  | succ fuel ih =>
    by_cases settled : ∀ r ∈ Heap.top (s.readyQueue.get j), u32 (r.key cfg) ∉ s.canErase
    · have also : ∀ r ∈ Heap.top (v.readyQueue.get j), u32 (r.key cfg) ∉ v.canErase := by
        rwa [shadow.ready,shadow.canErase]
      rwa [popFinished_stop settled,popFinished_stop also]
    · push Not at settled
      obtain ⟨r,top,finished⟩ := settled
      rw [popFinished_succ top finished,popFinished_succ (by rwa [shadow.ready])
        (by rwa [shadow.canErase])]
      refine ih (shadow.popTop distinct j (allocated r (List.mem_of_mem_head? top)))
        fun y member => allocated y ?_
      simp only [ByteScheduler.popTop,Table.get_put_same] at member
      exact Heap.mem_of_mem_pop _ member

theorem launch (shadow : Shadow cfg work s v) (j id : Nat) {r : TensorRef}
    (allocated : work.Allocates r) (more : u32 (r.key cfg) ∉ s.canErase) :
    Shadow cfg work (s.launch cfg j id r) (v.launch cfg j id r) := by
  refine ⟨shadow.tensor,?_,shadow.torn,shadow.ready,shadow.active,?_,?_,shadow.coroutines,
    shadow.enqueued,fun i k inside => ?_⟩
  · simp only [ByteScheduler.launch,Clients.allreduce,shadow.calls,
      shadow.queue_of_open allocated more]
  · simp only [ByteScheduler.launch,shadow.canErase,shadow.tensor]
  · simp only [ByteScheduler.launch,shadow.loops]
  · obtain ⟨extra,split,due⟩ := shadow.queue i k inside
    refine ⟨extra,split,fun some => ⟨?_,(due some).2⟩⟩
    simp only [ByteScheduler.launch]
    split
    · exact Finset.mem_insert_of_mem (due some).1
    · exact (due some).1

theorem leave (shadow : Shadow cfg work s v) (j id : Nat) :
    Shadow cfg work (s.leave j id) (v.leave j id) :=
  { shadow with
    active := by simp only [ByteScheduler.leave,shadow.active]
    loops := by simp only [ByteScheduler.leave,shadow.loops] }

theorem kickOff (distinct : work.DistinctCutKeys cfg) (shadow : Shadow cfg work s v) (j id : Nat)
    (allocated : ∀ r ∈ s.readyQueue.get j, work.Allocates r) :
    Shadow cfg work (s.kickOff cfg j id) (v.kickOff cfg j id) := by
  unfold ByteScheduler.kickOff
  rw [shadow.ready,shadow.active]
  split
  · exact shadow.leave j id
  · dsimp only
    have popped := shadow.popFinished distinct j (s.readyQueue.get j).length allocated
    have settled := popFinished_settled cfg s (Nat.le_refl (s.readyQueue.get j).length)
    have members := (popFinished_kept cfg j id (s.readyQueue.get j).length s).members j
    rw [popped.ready]
    generalize ByteScheduler.popFinished cfg j (s.readyQueue.get j).length s = s' at *
    cases top : Heap.top (s'.readyQueue.get j) with
    | none => exact popped.leave j id
    | some r =>
      exact popped.launch j id (allocated r (members r (List.mem_of_mem_head? top))) (settled r top)

/-- What a worker may enqueue is what it may enqueue without the enqueues that found no room. -/
theorem mayEnqueue (shadow : Shadow cfg work s v) (inv : Inv cfg work v) {r : TensorRef}
    (may : s.clients.MayEnqueue work r) :
    v.clients.MayEnqueue work r ∧ v.clients.enqueued r = s.clients.enqueued r := by
  obtain ⟨allocated,several,left,served⟩ := may
  have iter := inv.iter_le allocated
  rw [shadow.tensor] at iter
  have same : v.clients.enqueued r = s.clients.enqueued r := by
    rcases shadow.enqueued r with same | ahead
    · exact same
    · omega
  exact ⟨⟨allocated,several,by rwa [same],by rwa [same,shadow.tensor]⟩,same⟩

/-- What has been enqueued without room is of a pass that has ended. -/
theorem closing (shadow : Shadow cfg work s v) (inv : Inv cfg work v) {r : TensorRef}
    (may : s.clients.MayEnqueue work r)
    (crowded : work.numWorkersAllocated r.job ≤ (s.queue.get (r.key cfg)).length) :
    u32 (r.key cfg) ∈ s.canErase ∧ v.queue.get (r.key cfg) ≠ [] := by
  obtain ⟨may',_⟩ := shadow.mayEnqueue inv may
  obtain ⟨groups,sound,_⟩ := inv
  obtain ⟨w,j,k⟩ := r
  obtain ⟨worker,layer⟩ := may.1
  have unfinished := sound.unfinished_of_enqueue may'
  have rep := sound.consistent.represents j k layer
  have erased := sound.canErase j k layer unfinished
  have queued := sound.queue j k layer unfinished
  obtain ⟨extra,split,due⟩ := shadow.queue j k layer
  rw [shadow.canErase] at erased
  have full : (groups j k).arrived.length = work.numWorkersAllocated j := by
    by_cases none : extra = []
    · have most := rep.wellFormed.arrived_le
      have length : (s.queue.get (TensorRef.key cfg ⟨w,j,k⟩)).length = _ := congrArg List.length split
      rw [none,queued,List.append_nil,Group.entries,List.length_map] at length
      exact Nat.le_antisymm most (length ▸ crowded)
    · refine rep.wellFormed.full fun first => ?_
      have closing := erased.mp (due none).1
      simp [Group.Closing,first] at closing
  have arrived := rep.mem_arrived full worker
  refine ⟨erased.mpr ?_,?_⟩
  · have iter := rep.iter w worker
    have enqueued := rep.enqueued w worker
    have served := may'.2.2.2
    rw [if_pos arrived] at enqueued
    apply Group.closing_of_ended (w := w)
    by_contra going
    rw [Bool.not_eq_true] at going
    rw [going,Bool.toNat_false] at iter
    omega
  · rw [show TensorRef.key cfg ⟨w,j,k⟩ = cfg.getKey j k from rfl,queued,Group.entries]
    simpa using List.ne_nil_of_mem arrived

/-- An enqueue without room changes nothing else: the pass of the worker has ended. -/
theorem crowded (distinct : work.DistinctCutKeys cfg) (shadow : Shadow cfg work s v)
    (inv : Inv cfg work v) {r : TensorRef} (may : s.clients.MayEnqueue work r)
    (crowded : work.numWorkersAllocated r.job ≤ (s.queue.get (r.key cfg)).length) :
    Shadow cfg work (s.enqueue cfg work r) v := by
  obtain ⟨_,same⟩ := shadow.mayEnqueue inv may
  have partly : ((s.push cfg r).queue.get (r.key cfg)).length ≠ work.numWorkersAllocated r.job := by
    simp only [push,Table.get_put_same,List.length_append,List.length_singleton]
    omega
  unfold enqueue
  rw [if_neg partly]
  refine { shadow with enqueued := fun i => ?_, queue := fun j t inside => ?_ }
  · by_cases here : i = r
    · subst here
      simp [push,Clients.enqueue,same]
    · simpa [push,Clients.enqueue,here] using shadow.enqueued i
  · obtain ⟨extra,split,due⟩ := shadow.queue j t inside
    by_cases here : j = r.job ∧ t = r.tensorId
    · obtain ⟨rfl,rfl⟩ := here
      refine ⟨extra ++ [s.clients.nextEntry r],?_,fun _ => shadow.closing inv may crowded⟩
      simp [push,TensorRef.key,split]
    · have other : cfg.getKey j t ≠ r.key cfg := fun equal =>
        here (distinct.distinctKeys _ _ _ _ inside may.1.2 equal)
      exact ⟨extra,by simpa [push,other] using split,due⟩

theorem queue_of_room (shadow : Shadow cfg work s v) (inv : Inv cfg work v) {r : TensorRef}
    (may : s.clients.MayEnqueue work r)
    (room : (s.queue.get (r.key cfg)).length < work.numWorkersAllocated r.job) :
    v.queue.get (r.key cfg) = s.queue.get (r.key cfg) := by
  refine shadow.queue_of_open may.1 fun known => ?_
  obtain ⟨may',_⟩ := shadow.mayEnqueue inv may
  obtain ⟨groups,sound,_⟩ := inv
  have layer := may.1.2
  have unfinished := sound.unfinished_of_enqueue may'
  have queued : v.queue.get (r.key cfg) = _ := sound.queue r.job r.tensorId layer unfinished
  have closing := (sound.canErase r.job r.tensorId layer unfinished).mp (shadow.canErase ▸ known)
  have full := (sound.consistent.represents r.job r.tensorId layer).wellFormed.full fun first => by
    simp [Group.Closing,first] at closing
  obtain ⟨extra,split,_⟩ := shadow.queue r.job r.tensorId layer
  have length : (s.queue.get (r.key cfg)).length = _ := congrArg List.length split
  rw [show cfg.getKey r.job r.tensorId = r.key cfg from rfl,queued,List.length_append,
    Group.entries,List.length_map,full] at length
  exact absurd room (Nat.not_lt.mpr (length ▸ Nat.le_add_right _ _))

theorem push (distinct : work.DistinctCutKeys cfg) (shadow : Shadow cfg work s v) {r : TensorRef}
    (allocated : work.Allocates r) (same : v.clients.enqueued r = s.clients.enqueued r)
    (queued : v.queue.get (r.key cfg) = s.queue.get (r.key cfg)) :
    Shadow cfg work (s.push cfg r) (v.push cfg r) := by
  refine { shadow with enqueued := fun i => ?_, queue := fun j t inside => ?_ }
  · by_cases here : i = r
    · subst here
      simp [ByteScheduler.push,Clients.enqueue,same]
    · simpa [ByteScheduler.push,Clients.enqueue,here] using shadow.enqueued i
  · by_cases here : j = r.job ∧ t = r.tensorId
    · obtain ⟨rfl,rfl⟩ := here
      refine ⟨[],?_,fun some => absurd rfl some⟩
      rw [show cfg.getKey r.job r.tensorId = r.key cfg from rfl]
      simp [ByteScheduler.push,queued,Clients.nextEntry,same]
    · have other : cfg.getKey j t ≠ r.key cfg := fun equal =>
        here (distinct.distinctKeys _ _ _ _ inside allocated.2 equal)
      obtain ⟨extra,split,due⟩ := shadow.queue j t inside
      refine ⟨extra,by simpa [ByteScheduler.push,other] using split,fun some => ?_⟩
      simpa [ByteScheduler.push,other] using due some

theorem pushReady (shadow : Shadow cfg work s v) (r : TensorRef) :
    Shadow cfg work (s.ready r) (v.ready r) :=
  { shadow with
    ready := by simp only [ByteScheduler.ready,shadow.ready,shadow.customCompare] }

theorem activate (shadow : Shadow cfg work s v) (j : Nat) :
    Shadow cfg work (s.activate j) (v.activate j) :=
  { shadow with
    active := by simp only [ByteScheduler.activate,shadow.active]
    coroutines := by simp only [ByteScheduler.activate,shadow.coroutines] }

theorem enqueue (distinct : work.DistinctCutKeys cfg) (shadow : Shadow cfg work s v) {r : TensorRef}
    (allocated : work.Allocates r) (members : ∀ y ∈ s.readyQueue.get r.job, work.Allocates y)
    (same : v.clients.enqueued r = s.clients.enqueued r)
    (queued : v.queue.get (r.key cfg) = s.queue.get (r.key cfg)) :
    Shadow cfg work (s.enqueue cfg work r) (v.enqueue cfg work r) := by
  have pushed := shadow.push distinct allocated same queued
  have length : ((v.push cfg r).queue.get (r.key cfg)).length =
      ((s.push cfg r).queue.get (r.key cfg)).length := by
    simp [ByteScheduler.push,queued]
  rw [enqueue_eq,enqueue_eq,length,shadow.active]
  split
  · split
    · exact pushed.pushReady r
    · rw [shadow.coroutines]
      refine ((pushed.pushReady r).activate r.job).kickOff distinct _ _ fun y member => ?_
      have queued' : (((s.push cfg r).ready r).activate r.job).readyQueue.get r.job =
          Heap.push s.clients.customCompare r (s.readyQueue.get r.job) := Table.get_put_same _ _ _
      rw [queued'] at member
      rcases (Heap.mem_push _).mp member with rfl | old
      · exact allocated
      · exact members y old
  · exact pushed

theorem cleanupForJob_queue (s : ByteScheduler) (j key : Nat) :
    (s.cleanupForJob j).queue.get key = match s.queue.get key with
      | [] => []
      | e :: rest => if e.tensor.job = j then [] else e :: rest := by
  simp only [cleanupForJob,Table.get]
  cases s.queue key with
  | none => rfl
  | some entries =>
    cases entries with
    | nil => rfl
    | cons e rest =>
      by_cases own : e.tensor.job = j
      · simp only [own,if_true,Option.getD_some,Option.getD_none]
        rfl
      · simp [own]

theorem finish (shadow : Shadow cfg work s v) (w j : Nat) :
    Shadow cfg work ({ s with clients := s.clients.finish w j }.cleanupForJob j)
      ({ v with clients := v.clients.finish w j }.cleanupForJob j) := by
  refine { shadow with
    torn := by simp only [cleanupForJob,Clients.finish,shadow.torn]
    ready := by simp only [cleanupForJob,shadow.ready]
    active := by simp only [cleanupForJob,shadow.active]
    queue := fun i k inside => ?_ }
  obtain ⟨extra,split,due⟩ := shadow.queue i k inside
  rw [cleanupForJob_queue,cleanupForJob_queue]
  dsimp only
  rw [split]
  cases entries : v.queue.get (cfg.getKey i k) with
  | nil =>
    have none : extra = [] := by
      by_contra some
      exact (due some).2 entries
    exact ⟨[],by simp [none]⟩
  | cons e rest =>
    by_cases own : e.tensor.job = j
    · exact ⟨[],by simp [own]⟩
    · exact ⟨extra,by simp [own],fun some => ⟨(due some).1,by simp [own]⟩⟩

theorem mayFinish (shadow : Shadow cfg work s v) (inv : Inv cfg work v)
    (may : s.clients.MayFinish work w j) : v.clients.MayFinish work w j := by
  obtain ⟨worker,open',all⟩ := may
  refine ⟨worker,by rwa [shadow.torn],fun t layer => ?_⟩
  obtain ⟨enqueued,served⟩ := all t layer
  have iter := inv.iter_le (r := ⟨w,j,t⟩) ⟨worker,layer⟩
  rw [shadow.tensor] at iter ⊢
  rcases shadow.enqueued ⟨w,j,t⟩ with same | ahead
  · exact ⟨same.trans enqueued,served⟩
  · omega

end Shadow

theorem Inv.allocates (inv : Inv cfg work s) {r : TensorRef} (member : r ∈ s.readyQueue.get j) :
    work.Allocates r := by
  obtain ⟨groups,sound,_⟩ := inv
  exact (sound.readyAllocated j r member).2

/-- A step of the scheduler is a step without the enqueues that found no room, or is one. -/
theorem Shadow.step (distinct : work.DistinctCutKeys cfg) (shadow : Shadow cfg work s v)
    (inv : Inv cfg work v) {l : Label} (taken : step cfg work l s = some t) :
    Shadow cfg work t v ∨
      Room cfg work l s ∧ Room cfg work l v ∧
        ∃ u, ByteScheduler.step cfg work l v = some u ∧ Shadow cfg work t u := by
  cases l with
  | enqueue r =>
    simp only [ByteScheduler.step] at taken
    split at taken
    · rename_i may
      cases taken
      by_cases room : (s.queue.get (r.key cfg)).length < work.numWorkersAllocated r.job
      · obtain ⟨may',same⟩ := shadow.mayEnqueue inv may
        have queued := shadow.queue_of_room inv may room
        refine Or.inr ⟨room,?_,_,if_pos may',
          shadow.enqueue distinct may.1 (fun y member => ?_) same queued⟩
        · simpa only [Room,queued] using room
        · exact inv.allocates (by rwa [shadow.ready])
      · exact Or.inl (shadow.crowded distinct inv may (Nat.not_lt.mp room))
    · cases taken
  | complete call =>
    obtain ⟨clients,completed,taken⟩ := Option.bind_eq_some_iff.mp taken
    obtain ⟨called,rfl⟩ := Clients.complete_some completed
    cases taken
    have found : v.clients.calls.find? (fun other => other.entry.tensor = call.entry.tensor) =
        some call := by
      rw [shadow.calls]
      unfold Clients.complete at completed
      split at completed
      · assumption
      · cases completed
    refine Or.inr ⟨trivial,trivial,{ v with clients := v.clients.answer cfg.chunkSize call },?_,?_⟩
    · simp [ByteScheduler.step,Clients.complete,found]
    · exact { shadow with
        tensor := by simp only [Clients.answer,shadow.tensor]
        calls := by simp only [Clients.answer,shadow.calls] }
  | resume id =>
    obtain ⟨j,known,taken⟩ := Option.bind_eq_some_iff.mp taken
    split at taken
    · rename_i allowed
      cases taken
      have allowed' : v.clients.awaits id = false ∧ v.Readable j := by
        simpa only [Clients.awaits,Readable,shadow.calls,shadow.ready,shadow.torn] using allowed
      refine Or.inr ⟨trivial,trivial,v.kickOff cfg j id,?_,?_⟩
      · rw [ByteScheduler.step,shadow.loops,known]
        exact if_pos allowed'
      · exact shadow.kickOff distinct j id fun r member => inv.allocates (by rwa [shadow.ready])
    · cases taken
  | finish w j =>
    simp only [ByteScheduler.step] at taken
    split at taken
    · rename_i may
      cases taken
      exact Or.inr ⟨trivial,trivial,_,if_pos (shadow.mayFinish inv may),shadow.finish w j⟩
    · cases taken

end CloudSim.ByteScheduler
