import CloudSim.ByteSchedulerShadow

/-! Which tensor `ByteScheduler` serves next. -/
namespace CloudSim

/-- `r` is not less urgent than `y`, by `(iter, tensor_id)`. -/
def Clients.NotAfter (c : Clients) (r y : TensorRef) : Prop :=
  (c.tensor r).iter < (c.tensor y).iter ∨
    (c.tensor r).iter = (c.tensor y).iter ∧ r.tensorId ≤ y.tensorId

instance (c : Clients) (r y : TensorRef) : Decidable (c.NotAfter r y) :=
  inferInstanceAs (Decidable (_ ∨ _))

theorem Clients.customCompare_eq_false {c : Clients} :
    c.customCompare r y = false ↔ c.NotAfter r y := by
  unfold Clients.customCompare Clients.NotAfter
  split <;> simp <;> omega

namespace ByteScheduler

/-- The ready queue that `kick_off` picks from, without the finished tensors that it pops. -/
def candidates (cfg : Config) (s : ByteScheduler) (j : Nat) : List TensorRef :=
  (popFinished cfg j (s.readyQueue.get j).length s).readyQueue.get j

/-- The tensor that `kick_off` starts a chunk of when it is at the head of its loop. -/
def pick (cfg : Config) (s : ByteScheduler) (j : Nat) : Option TensorRef :=
  if s.readyQueue.get j = [] ∨ j ∉ s.activeJobs then none else Heap.top (s.candidates cfg j)

/-- The state in which a step runs the loop of a `kick_off` from its head, and the job. -/
def looped (cfg : Config) (work : Workload) : Label → ByteScheduler → Option (ByteScheduler × Nat)
  | .enqueue r,s =>
    if ((s.push cfg r).queue.get (r.key cfg)).length = work.numWorkersAllocated r.job ∧
        r.job ∉ s.activeJobs then
      some (((s.push cfg r).ready r).activate r.job,r.job)
    else none
  | .resume id,s => (s.loops id).map fun j => (s,j)
  | .complete _,_ | .finish _ _,_ => none

/-- Of the tensors in the ready queue whose current pass has not ended, none is more urgent. -/
def MostUrgent (cfg : Config) (s : ByteScheduler) (j : Nat) (r : TensorRef) : Prop :=
  r ∈ s.candidates cfg j ∧ ∀ y ∈ s.candidates cfg j,
    (s.clients.tensor y).iter < s.clients.enqueued y → s.clients.NotAfter r y

instance (cfg : Config) (s : ByteScheduler) (j : Nat) (r : TensorRef) :
    Decidable (s.MostUrgent cfg j r) := inferInstanceAs (Decidable (_ ∧ _))

/-- If the step starts a chunk, then that of a most urgent tensor. -/
def Serves (cfg : Config) (work : Workload) (l : Label) (s : ByteScheduler) : Prop :=
  ∀ head ∈ looped cfg work l s, ∀ r ∈ head.1.pick cfg head.2, head.1.MostUrgent cfg head.2 r

instance (cfg : Config) (work : Workload) (l : Label) (s : ByteScheduler) :
    Decidable (Serves cfg work l s) :=
  inferInstanceAs (Decidable (∀ head ∈ looped cfg work l s, ∀ r ∈ head.1.pick cfg head.2, _))

variable {cfg : Config} {work : Workload} {s t v : ByteScheduler}

theorem kickOff_launches (cfg : Config) (s : ByteScheduler) (j id : Nat) :
    (s.kickOff cfg j id).launches = s.launches ++ match s.pick cfg j with
      | none => []
      | some r =>
        [(popFinished cfg j (s.readyQueue.get j).length s).queue.get (r.key cfg)] := by
  have kept (fuel : Nat) (s : ByteScheduler) : (popFinished cfg j fuel s).launches = s.launches := by
    induction fuel generalizing s with
    | zero => rfl
    | succ fuel ih =>
      unfold popFinished
      split
      · rfl
      · dsimp only
        split
        · exact ih _
        · rfl
  unfold kickOff pick
  split
  · simp [leave]
  · dsimp only
    unfold candidates
    cases Heap.top ((popFinished cfg j (s.readyQueue.get j).length s).readyQueue.get j) with
    | none => simp [leave,kept]
    | some r => simp [launch,kept]

/-- Only the loop of a `kick_off` starts chunks. -/
theorem step_launches {l : Label} (taken : step cfg work l s = some t) :
    t.launches = s.launches ∨ ∃ u j r, looped cfg work l s = some (u,j) ∧ u.pick cfg j = some r ∧
      t.launches = s.launches ++
        [(popFinished cfg j (u.readyQueue.get j).length u).queue.get (r.key cfg)] := by
  have run (u : ByteScheduler) (j id : Nat) (head : looped cfg work l s = some (u,j))
      (same : u.launches = s.launches) (after : u.kickOff cfg j id = t) :
      t.launches = s.launches ∨ ∃ u j r, looped cfg work l s = some (u,j) ∧ u.pick cfg j = some r ∧
        t.launches = s.launches ++
          [(popFinished cfg j (u.readyQueue.get j).length u).queue.get (r.key cfg)] := by
    have launches := kickOff_launches cfg u j id
    rw [after,same] at launches
    cases picked : u.pick cfg j with
    | none =>
      rw [picked,List.append_nil] at launches
      exact Or.inl launches
    | some r =>
      rw [picked] at launches
      exact Or.inr ⟨u,j,r,head,picked,launches⟩
  cases l with
  | enqueue r =>
    simp only [step] at taken
    split at taken
    · have result := Option.some.inj taken
      rw [enqueue_eq] at result
      split at result
      · rename_i full
        split at result
        · exact Or.inl (by rw [← result]; rfl)
        · rename_i inactive
          exact run _ _ _ (if_pos ⟨full,inactive⟩) rfl result
      · exact Or.inl (by rw [← result]; rfl)
    · cases taken
  | complete call =>
    obtain ⟨clients,_,taken⟩ := Option.bind_eq_some_iff.mp taken
    cases taken
    exact Or.inl rfl
  | resume id =>
    obtain ⟨j,known,taken⟩ := Option.bind_eq_some_iff.mp taken
    split at taken
    · cases taken
      exact run s j id (by simp [looped,known]) rfl rfl
    · cases taken
  | finish w j =>
    simp only [step] at taken
    split at taken
    · cases taken
      exact Or.inl rfl
    · cases taken

theorem Awake.mostUrgent {groups : Nat → Nat → Group} {id : Nat} (awake : Awake work groups s j id)
    (sound : Sound cfg work groups s) (ordered : s.InHeapOrder cfg j) {r : TensorRef}
    (picked : s.pick cfg j = some r) :
    r ∈ s.candidates cfg j ∧ ∀ y ∈ s.candidates cfg j, s.clients.NotAfter r y := by
  unfold pick at picked
  split at picked
  · cases picked
  · refine ⟨List.mem_of_mem_head? picked,fun y member => ?_⟩
    have heap := awake.popped sound ordered
    exact Clients.customCompare_eq_false.mp (heap.top_le (compareAt_strict _) picked member)

theorem Shadow.mostUrgent (distinct : work.DistinctCutKeys cfg) (shadow : Shadow cfg work s v)
    (allocated : ∀ r ∈ s.readyQueue.get j, work.Allocates r)
    (urgent : ∀ r, v.pick cfg j = some r →
      r ∈ v.candidates cfg j ∧ ∀ y ∈ v.candidates cfg j, v.clients.NotAfter r y)
    {r : TensorRef} (picked : s.pick cfg j = some r) : s.MostUrgent cfg j r := by
  have popped := shadow.popFinished distinct j (s.readyQueue.get j).length allocated
  have same : v.candidates cfg j = s.candidates cfg j := by
    rw [candidates,candidates,← popped.ready,shadow.ready]
  have picked' : v.pick cfg j = some r := by
    rwa [pick,same,shadow.ready,shadow.active]
  obtain ⟨member,first⟩ := urgent r picked'
  rw [same] at member first
  refine ⟨member,fun y inside _ => ?_⟩
  simpa only [Clients.NotAfter,shadow.tensor] using first y inside

def Regular (cfg : Config) (work : Workload) (s : ByteScheduler) : Prop :=
  ∃ v, Shadow cfg work s v ∧ Inv cfg work v ∧ ∀ j, v.InHeapOrder cfg j

theorem initial_regular (cfg : Config) (work : Workload) : Regular cfg work (initial work) := by
  refine ⟨_,Shadow.refl cfg work _,initial_inv cfg work,fun j =>
    InHeapOrder.of_ordered Heap.ordered_nil⟩

theorem Shadow.inHeapOrder (shadow : Shadow cfg work s v) (ordered : s.InHeapOrder cfg j) :
    v.InHeapOrder cfg j := by
  have final : v.finalIter cfg = s.finalIter cfg := by
    funext r
    simp only [finalIter,shadow.canErase,shadow.calls,shadow.tensor]
  rwa [InHeapOrder,final,shadow.ready,shadow.canErase]

theorem Shadow.inOrder (distinct : work.DistinctCutKeys cfg) (shadow : Shadow cfg work s v)
    (inv : Inv cfg work v) {l : Label} (taken : ByteScheduler.step cfg work l s = some t)
    (room : Room cfg work l s) (inOrder : InOrder cfg work l s) : InOrder cfg work l v := by
  cases l with
  | enqueue r =>
    simp only [ByteScheduler.step] at taken
    split at taken
    · rename_i may
      obtain ⟨_,same⟩ := shadow.mayEnqueue inv may
      have queued := shadow.queue_of_room inv may room
      have length : ((v.push cfg r).queue.get (r.key cfg)).length =
          ((s.push cfg r).queue.get (r.key cfg)).length := by
        simp [ByteScheduler.push,queued]
      intro full finished
      rw [shadow.ready,shadow.canErase] at finished
      exact ((shadow.push distinct may.1 same queued).pushReady r).inHeapOrder
        (inOrder (length.symm.trans full) finished)
    · cases taken
  | complete _ => exact trivial
  | resume _ => exact trivial
  | finish _ _ => exact trivial

theorem step_regular (chunk : 1 ≤ cfg.chunkSize) (distinct : work.DistinctCutKeys cfg) (l : Label)
    (s t : ByteScheduler) (regular : Regular cfg work s) (inOrder : InOrder cfg work l s)
    (taken : step cfg work l s = some t) : Regular cfg work t := by
  obtain ⟨v,shadow,inv,ordered⟩ := regular
  rcases shadow.step distinct inv taken with still | ⟨room,room',u,taken',shadow'⟩
  · exact ⟨v,still,inv,ordered⟩
  · exact ⟨u,shadow',step_inv chunk distinct l v u inv room' taken',fun j =>
      step_ordered chunk distinct l inv room' (shadow.inOrder distinct inv taken room inOrder) taken'
        ordered j⟩

/-- A loop that resumes, or that an enqueue starts, picks a most urgent tensor. -/
theorem Regular.serves (distinct : work.DistinctCutKeys cfg) (regular : Regular cfg work s)
    {l : Label} (inOrder : InOrder cfg work l s) (taken : step cfg work l s = some t) :
    Serves cfg work l s := by
  obtain ⟨v,shadow,inv,ordered⟩ := regular
  rintro ⟨u,j⟩ head r picked
  cases l with
  | enqueue new =>
    simp only [step] at taken
    simp only [looped] at head
    split at taken
    case isFalse => cases taken
    rename_i may
    split at head
    case isFalse => cases head
    rename_i starts
    cases head
    obtain ⟨full,inactive⟩ := starts
    have room : (s.queue.get (new.key cfg)).length < work.numWorkersAllocated new.job := by
      simp only [push,Table.get_put_same,List.length_append,List.length_singleton] at full
      omega
    obtain ⟨may',same⟩ := shadow.mayEnqueue inv may
    have queued := shadow.queue_of_room inv may room
    obtain ⟨groups,sound,attended,fresh⟩ := inv
    obtain ⟨before,length⟩ := sound.room may' (queued ▸ room)
    have all : (groups new.job new.tensorId).arrived.length + 1 =
        work.numWorkersAllocated new.job := by
      rw [← length,← full]
      simp [push,queued]
    obtain ⟨sound',awake,_,empty⟩ := enqueue_head distinct sound attended fresh may' all
      (by rwa [shadow.active])
    have heap : (((v.push cfg new).ready new).activate new.job).InHeapOrder cfg new.job :=
      ready_ordered sound may' before (ordered new.job) (by simp [empty])
    have head := ((shadow.push distinct may.1 same queued).pushReady new).activate new.job
    refine head.mostUrgent distinct (fun y member => ?_)
      (fun y => awake.mostUrgent sound' heap) picked
    exact (sound'.readyAllocated new.job y (by rwa [head.ready])).2
  | resume id =>
    obtain ⟨i,known,taken⟩ := Option.bind_eq_some_iff.mp taken
    simp only [looped,known,Option.map_some] at head
    cases head
    split at taken
    · rename_i allowed
      obtain ⟨groups,sound,attended,_⟩ := inv
      obtain ⟨after,sound',awake,_⟩ := resume_head sound attended (shadow.loops ▸ known)
        (by simpa only [Clients.awaits,shadow.calls] using allowed.1) (shadow.ready ▸ allowed.2.1)
      refine shadow.mostUrgent distinct (fun y member => ?_)
        (fun y => awake.mostUrgent sound' (ordered j)) picked
      exact (sound.readyAllocated j y (by rwa [shadow.ready])).2
    · cases taken
  | complete call => cases head
  | finish w i => cases head

/-- In every run in which no push puts the ready queue out of heap order, every chunk is one of a
most urgent tensor. -/
theorem most_urgent_served (cfg : Config) (work : Workload) (chunk : 1 ≤ cfg.chunkSize)
    (distinct : work.DistinctCutKeys cfg) (s t : ByteScheduler) (l : Label)
    (run : Runs.Run (step cfg work) (InOrder cfg work) (initial work) s)
    (inOrder : InOrder cfg work l s) (taken : step cfg work l s = some t) :
    Serves cfg work l s := by
  have regular := run.invariant (step_regular chunk distinct) (initial_regular cfg work)
  exact regular.serves distinct inOrder taken

/-- Two workers, six tensors of one chunk, one iteration. -/
def sixLayers : Workload where
  widsAllocated _ := [0,1]
  model j := if j = 0 then [1,1,1,1,1,1] else []
  nIter _ := 1
  widsDistinct := oneLayer.widsDistinct
  sizesFit j := by by_cases first : j = 0 <;> simp [first]
  itersFit := Workload.onePass_fits

theorem sixLayers_distinctCutKeys : sixLayers.DistinctCutKeys oneLayerConfig := by
  intro j t i k first second same
  have only (j t : Nat) (inside : t < (sixLayers.model j).length) : j = 0 ∧ t < 6 := by
    by_cases here : j = 0
    · subst here
      exact ⟨rfl,inside⟩
    · simp [sixLayers,here] at inside
  obtain ⟨rfl,small⟩ := only j t first
  obtain ⟨rfl,low⟩ := only i k second
  have cut : t % 2^32 = k % 2^32 := same
  exact ⟨rfl,by omega⟩

def enqueues (w : Nat) (ts : List Nat) : List Label := ts.map fun t => .enqueue ⟨w,0,t⟩

/-- The end of the call of worker `w` for tensor `t`. -/
def ends (w t : Nat) : Label := .complete ⟨0,⟨⟨w,0,t⟩,0⟩⟩

/-- A push puts tensor 4 above tensor 5, whose last chunk is under way. -/
theorem most_urgent_served_four :
    ∃ s t, Runs.Run (step oneLayerConfig sixLayers) (InOrder oneLayerConfig sixLayers)
        (initial sixLayers) s ∧ t.launches.length = 2 ∧
      step oneLayerConfig sixLayers (.resume 0) s = some t ∧
      Serves oneLayerConfig sixLayers (.resume 0) s := by
  have run : (Runs.exec (step oneLayerConfig sixLayers) (InOrder oneLayerConfig sixLayers)
      (enqueues 0 [5,4] ++ enqueues 1 [5,4] ++ [ends 0 5,ends 1 5]) (initial sixLayers)).map
      (fun s => (step oneLayerConfig sixLayers (.resume 0) s).map fun t => t.launches.length) =
      some (some 2) := by decide +kernel
  obtain ⟨s,run,view⟩ := Runs.exists_run_of_exec run
  obtain ⟨t,taken,launches⟩ := Option.map_eq_some_iff.mp view
  exact ⟨s,t,run,launches,taken,most_urgent_served oneLayerConfig sixLayers (by decide)
    sixLayers_distinctCutKeys s t (.resume 0) run trivial taken⟩

/-- Tensor 2 is on top when its iteration is incremented, tensors 1 and 0 are pushed above it, and
tensor 4 gets ahead of tensor 3. -/
theorem less_urgent_served :
    ∃ s t, Runs.Run (step oneLayerConfig sixLayers) Runs.anyStep (initial sixLayers) s ∧
      step oneLayerConfig sixLayers (.resume 0) s = some t ∧
      ¬Serves oneLayerConfig sixLayers (.resume 0) s := by
  have run : (Runs.exec (step oneLayerConfig sixLayers) Runs.anyStep
      (enqueues 0 [5,4,3,2,1,0] ++ enqueues 1 [5,4,3,2] ++ [ends 0 5,ends 1 5,.resume 0,ends 1 2] ++
        enqueues 1 [1] ++ [ends 0 2,.resume 0,ends 1 1] ++ enqueues 1 [0] ++
        [ends 0 1,.resume 0,ends 1 0,ends 0 0]) (initial sixLayers)).map
      (fun s => ((step oneLayerConfig sixLayers (.resume 0) s).isSome,
        decide (Serves oneLayerConfig sixLayers (.resume 0) s))) = some (true,false) := by
    decide +kernel
  obtain ⟨s,run,view⟩ := Runs.exists_run_of_exec run
  obtain ⟨goes,fails⟩ := Prod.mk.inj view
  obtain ⟨t,taken⟩ := Option.isSome_iff_exists.mp goes
  exact ⟨s,t,run,taken,of_decide_eq_false fails⟩

end ByteScheduler
end CloudSim
