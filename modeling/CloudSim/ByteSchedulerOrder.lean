import CloudSim.ByteSchedulerLossless
import CloudSim.HeapOrder

/-! The ready queues of `ByteScheduler` stay in heap order, by the iterations that their tensors
will be at, while no push puts a tensor above a finished one that others come before. -/
namespace CloudSim

/-- `CustomCompare`, when the tensors are at the iterations `iter`. -/
def compareAt (iter : TensorRef → Nat) (lhs rhs : TensorRef) : Bool :=
  if iter lhs = iter rhs then decide (rhs.tensorId < lhs.tensorId)
  else decide (iter rhs < iter lhs)

theorem compareAt_strict (iter : TensorRef → Nat) : Heap.Strict (compareAt iter) := by
  constructor
  · intro a b
    unfold compareAt
    split <;> split <;> simp <;> omega
  · intro a b c
    unfold compareAt
    split <;> split <;> split <;> simp <;> omega

theorem compareAt_congr {iter iter' : TensorRef → Nat} (first : iter' a = iter a)
    (second : iter' b = iter b) : compareAt iter' a b = compareAt iter a b := by
  rw [compareAt,compareAt,first,second]

theorem customCompare_eq (c : Clients) : c.customCompare = compareAt fun r => (c.tensor r).iter :=
  rfl

theorem compareAt_eq {iter : TensorRef → Nat} {c : Clients} (first : iter a = (c.tensor a).iter)
    (second : iter b = (c.tensor b).iter) : compareAt iter a b = c.customCompare a b := by
  rw [compareAt,first,second]
  rfl

instance (chunkSize size : Nat) (g : Group) : Decidable (g.Closing chunkSize size) :=
  match g with
  | ⟨_,_,.gathering _⟩ => isFalse id
  | ⟨_,_,.reducing chunks _ _⟩ => inferInstanceAs (Decidable (Group.Last chunkSize size chunks))
  | ⟨_,_,.served⟩ => isTrue trivial

/-- The turn that the tensors of the group are at when its calls have ended. -/
def Group.finalTurn (chunkSize size : Nat) (g : Group) : Nat :=
  if g.Closing chunkSize size then g.turn + 1 else g.turn

namespace ByteScheduler

/-- The iteration that `r` is at when the call on it that is under way has ended. -/
def finalIter (cfg : Config) (s : ByteScheduler) (r : TensorRef) : Nat :=
  if u32 (r.key cfg) ∈ s.canErase ∧ ∃ call ∈ s.clients.calls, call.entry.tensor = r then
    (s.clients.tensor r).iter + 1
  else (s.clients.tensor r).iter

/-- The ready queue of the job is in heap order by what its tensors will be, except perhaps below
a top that is in `can_erase`. -/
def InHeapOrder (cfg : Config) (s : ByteScheduler) (j : Nat) : Prop :=
  Heap.OrderedBelowTop (compareAt (s.finalIter cfg)) (s.readyQueue.get j) ∧
    ((∀ r ∈ Heap.top (s.readyQueue.get j), u32 (r.key cfg) ∉ s.canErase) →
      Heap.Ordered (compareAt (s.finalIter cfg)) (s.readyQueue.get j))

instance (cfg : Config) (s : ByteScheduler) (j : Nat) : Decidable (s.InHeapOrder cfg j) :=
  inferInstanceAs (Decidable (_ ∧ _))

/-- An enqueue that completes its group while a tensor of the job's ready queue is in `can_erase`
leaves the ready queue in heap order. -/
def InOrder (cfg : Config) (work : Workload) : Label → ByteScheduler → Prop
  | .enqueue r,s =>
    ((s.push cfg r).queue.get (r.key cfg)).length = work.numWorkersAllocated r.job →
      (∃ y ∈ s.readyQueue.get r.job, u32 (y.key cfg) ∈ s.canErase) →
        ((s.push cfg r).ready r).InHeapOrder cfg r.job
  | _,_ => True

instance (cfg : Config) (work : Workload) (l : Label) (s : ByteScheduler) :
    Decidable (InOrder cfg work l s) :=
  match l with
  | .enqueue _ => inferInstanceAs (Decidable (_ → _))
  | .complete _ | .resume _ | .finish _ _ => isTrue trivial

variable {cfg : Config} {work : Workload} {groups after : Nat → Nat → Group} {s u : ByteScheduler}

theorem called_iff {chunkSize : Nat} {c : Clients} {g : Group} (rep : Represents work chunkSize c j t g)
    (w : Nat) : (∃ call ∈ c.calls, call.entry.tensor = ⟨w,j,t⟩) ↔
      ∃ chunks waiter outstanding, g.phase = .reducing chunks waiter outstanding ∧
        w ∈ outstanding := by
  constructor
  · rintro ⟨call,called,same⟩
    have ofLayer : call.ofLayer j t = true := by simp [Call.ofLayer,same]
    obtain ⟨chunks,waiter,outstanding,v,phase,member,rfl⟩ := rep.awaited called ofLayer
    cases same
    exact ⟨chunks,waiter,outstanding,phase,member⟩
  · rintro ⟨chunks,waiter,outstanding,phase,member⟩
    have called := rep.calls.symm.subset
      (show (⟨waiter,⟨⟨w,j,t⟩,g.turn⟩⟩ : Call) ∈ _ by simp [Group.calls,phase,member])
    exact ⟨_,List.mem_of_mem_filter called,rfl⟩

theorem finalIter_of_open {r : TensorRef} (more : u32 (r.key cfg) ∉ s.canErase) :
    s.finalIter cfg r = (s.clients.tensor r).iter := by
  simp [finalIter,more]

theorem finalIter_eq (sound : Sound cfg work groups s) {r : TensorRef} (allocated : work.Allocates r)
    (unfinished : s.Unfinished r.job) : s.finalIter cfg r =
      (groups r.job r.tensorId).finalTurn cfg.chunkSize (work.size r.job r.tensorId) := by
  obtain ⟨w,j,t⟩ := r
  have rep := sound.consistent.represents j t allocated.2
  have erased := sound.canErase j t allocated.2 unfinished
  have iter := rep.iter w allocated.1
  have called := called_iff rep w
  by_cases closing : (groups j t).Closing cfg.chunkSize (work.size j t)
  · rw [Group.finalTurn,if_pos closing]
    by_cases waiting : ∃ call ∈ s.clients.calls, call.entry.tensor = ⟨w,j,t⟩
    · obtain ⟨chunks,waiter,outstanding,phase,member⟩ := called.mp waiting
      rw [finalIter,if_pos ⟨erased.mpr closing,waiting⟩,iter]
      simp [Group.ended,phase,member]
    · rw [finalIter,if_neg fun both => waiting both.2,iter]
      cases phase : (groups j t).phase with
      | gathering chunks => simp [Group.Closing,phase] at closing
      | served => simp [Group.ended,phase]
      | reducing chunks waiter outstanding =>
        have answered : w ∉ outstanding := fun member =>
          waiting (called.mpr ⟨chunks,waiter,outstanding,phase,member⟩)
        simp only [Group.Closing,phase] at closing
        simp [Group.ended,phase,closing,answered]
  · rw [finalIter_of_open fun known => closing (erased.mp known),Group.finalTurn,if_neg closing,iter]
    cases phase : (groups j t).phase with
    | gathering chunks => simp [Group.ended,phase]
    | served => simp [Group.Closing,phase] at closing
    | reducing chunks waiter outstanding =>
      simp only [Group.Closing,phase] at closing
      simp [Group.ended,phase,closing]

/-- The heap order depends on the turns of the groups and on which of them are closing. -/
theorem InHeapOrder.frame (ordered : s.InHeapOrder cfg i) (sound : Sound cfg work groups s)
    (sound' : Sound cfg work after u) (ready : u.readyQueue.get i = s.readyQueue.get i)
    (turns : ∀ k, (after i k).turn = (groups i k).turn)
    (closing : ∀ k, (after i k).Closing cfg.chunkSize (work.size i k) ↔
      (groups i k).Closing cfg.chunkSize (work.size i k)) : u.InHeapOrder cfg i := by
  have member' (r : TensorRef) (member : r ∈ s.readyQueue.get i) :
      r.job = i ∧ work.Allocates r ∧ s.Unfinished i ∧ u.Unfinished i :=
    have ⟨ofJob,allocated⟩ := sound.readyAllocated i r member
    ⟨ofJob,allocated,sound.unfinished_of_member member,
      sound'.unfinished_of_member (ready ▸ member)⟩
  have final (r : TensorRef) (member : r ∈ s.readyQueue.get i) :
      u.finalIter cfg r = s.finalIter cfg r := by
    obtain ⟨rfl,allocated,before,now⟩ := member' r member
    rw [finalIter_eq sound' allocated now,finalIter_eq sound allocated before]
    simp only [Group.finalTurn,turns,closing]
  have same (a : TensorRef) (first : a ∈ s.readyQueue.get i) (b : TensorRef)
      (second : b ∈ s.readyQueue.get i) :=
    compareAt_congr (final a first) (final b second)
  rw [InHeapOrder,ready]
  refine ⟨ordered.1.congr same,fun open' => (ordered.2 fun r top => ?_).congr same⟩
  have member := List.mem_of_mem_head? top
  obtain ⟨rfl,allocated,before,now⟩ := member' r member
  have known := open' r top
  rwa [show r.key cfg = cfg.getKey r.job r.tensorId from rfl,
    sound'.canErase _ _ allocated.2 now,closing,← sound.canErase _ _ allocated.2 before] at known

theorem InHeapOrder.of_ordered
    (ordered : Heap.Ordered (compareAt (s.finalIter cfg)) (s.readyQueue.get j)) :
    s.InHeapOrder cfg j := ⟨ordered.belowTop,fun _ => ordered⟩

theorem ready_ordered (sound : Sound cfg work groups s) {r : TensorRef}
    (may : s.clients.MayEnqueue work r)
    (room : (groups r.job r.tensorId).arrived.length < work.numWorkersAllocated r.job)
    (ordered : s.InHeapOrder cfg r.job)
    (none : ∀ y ∈ s.readyQueue.get r.job, u32 (y.key cfg) ∉ s.canErase) :
    ((s.push cfg r).ready r).InHeapOrder cfg r.job := by
  obtain ⟨phase,_⟩ := (sound.consistent.represents _ _ may.1.2).of_room may room
  have own : u32 (r.key cfg) ∉ s.canErase := by
    rw [show r.key cfg = cfg.getKey r.job r.tensorId from rfl,
      sound.canErase _ _ may.1.2 (sound.unfinished_of_enqueue may)]
    simp [Group.Closing,phase]
  have now (y : TensorRef) (more : u32 (y.key cfg) ∉ s.canErase) :
      ((s.push cfg r).ready r).finalIter cfg y = (s.clients.tensor y).iter :=
    finalIter_of_open more
  have before : Heap.Ordered s.clients.customCompare (s.readyQueue.get r.job) :=
    (ordered.2 fun y top => none y (List.mem_of_mem_head? top)).congr fun a first b second =>
      (compareAt_eq (finalIter_of_open (none a first)) (finalIter_of_open (none b second))).symm
  have pushed := Heap.push_ordered (compareAt_strict _) before r
  refine InHeapOrder.of_ordered ?_
  have queued : ((s.push cfg r).ready r).readyQueue.get r.job =
      Heap.push s.clients.customCompare r (s.readyQueue.get r.job) := Table.get_put_same _ _ _
  have more (y : TensorRef) (member : y ∈ Heap.push s.clients.customCompare r
      (s.readyQueue.get r.job)) : u32 (y.key cfg) ∉ s.canErase := by
    rcases (Heap.mem_push _).mp member with rfl | old
    · exact own
    · exact none y old
  rw [queued]
  exact pushed.congr fun a first b second =>
    compareAt_eq (now a (more a first)) (now b (more b second))

/-- An arrival changes neither the turn of its group nor whether it is closing. -/
theorem arrive_alike (groups : Nat → Nat → Group) (r : TensorRef) (chunkSize size j k : Nat) :
    (setGroup groups r.job r.tensorId ((groups r.job r.tensorId).arrive r.machine) j k).turn =
      (groups j k).turn ∧
    ((setGroup groups r.job r.tensorId ((groups r.job r.tensorId).arrive r.machine) j k).Closing
      chunkSize size ↔ (groups j k).Closing chunkSize size) := by
  by_cases here : j = r.job ∧ k = r.tensorId
  · obtain ⟨rfl,rfl⟩ := here
    simp [Group.Closing]
  · rw [setGroup_other here]
    exact ⟨rfl,Iff.rfl⟩

theorem popFinished_clients (cfg : Config) (j fuel : Nat) (s : ByteScheduler) :
    (popFinished cfg j fuel s).clients = s.clients := by
  induction fuel generalizing s with
  | zero => rfl
  | succ fuel ih =>
    unfold popFinished
    split
    · rfl
    · dsimp only
      split
      · exact ih _
      · rfl

/-- The inner loop of `kick_off` pops whatever is above the unfinished tensors. -/
theorem popFinished_ordered (fuel : Nat) (enough : (s.readyQueue.get j).length ≤ fuel)
    (below : Heap.OrderedBelowTop s.clients.customCompare (s.readyQueue.get j))
    (top : (∀ r ∈ Heap.top (s.readyQueue.get j), u32 (r.key cfg) ∉ s.canErase) →
      Heap.Ordered s.clients.customCompare (s.readyQueue.get j)) :
    Heap.Ordered s.clients.customCompare ((popFinished cfg j fuel s).readyQueue.get j) := by
  induction fuel generalizing s with
  | zero =>
    have empty := List.length_eq_zero_iff.mp (Nat.le_zero.mp enough)
    exact top (by simp [empty,Heap.top])
  | succ fuel ih =>
    by_cases settled : ∀ r ∈ Heap.top (s.readyQueue.get j), u32 (r.key cfg) ∉ s.canErase
    · rw [popFinished_stop settled]
      exact top settled
    · push Not at settled
      obtain ⟨r,first,finished⟩ := settled
      rw [popFinished_succ first finished]
      have nonempty : s.readyQueue.get j ≠ [] := by
        intro empty; simp [empty,Heap.top] at first
      have length := Heap.pop_length s.clients.customCompare nonempty
      have popped := Heap.pop_ordered (compareAt_strict _) below
      rw [← customCompare_eq] at popped
      have queued : (s.popTop cfg j r).readyQueue.get j =
          Heap.pop s.clients.customCompare (s.readyQueue.get j) := Table.get_put_same _ _ _
      refine ih (s := s.popTop cfg j r) ?_ ?_ fun _ => ?_ <;> rw [queued]
      · omega
      · exact popped.belowTop
      · exact popped

/-- While no group of the job is being reduced, its tensors are what they will be. -/
theorem Awake.finalIter {id : Nat} (awake : Awake work groups s j id) (sound : Sound cfg work groups s)
    {r : TensorRef} (member : r ∈ s.readyQueue.get j) :
    s.finalIter cfg r = (s.clients.tensor r).iter := by
  obtain ⟨rfl,allocated⟩ := sound.readyAllocated j r member
  refine if_neg fun called => ?_
  obtain ⟨chunks,waiter,outstanding,phase,_⟩ :=
    (called_iff (sound.consistent.represents _ _ allocated.2) r.machine).mp called.2
  exact awake.quiet _ allocated.2 (by simp [phase,Phase.Reducing])

/-- When a loop is at its head, the ready queue of the job is a heap once the finished tensors
above it are gone. -/
theorem Awake.popped {id : Nat} (awake : Awake work groups s j id) (sound : Sound cfg work groups s)
    (ordered : s.InHeapOrder cfg j) : Heap.Ordered s.clients.customCompare
      ((popFinished cfg j (s.readyQueue.get j).length s).readyQueue.get j) := by
  have same (a : TensorRef) (first : a ∈ s.readyQueue.get j) (b : TensorRef)
      (second : b ∈ s.readyQueue.get j) :
      s.clients.customCompare a b = compareAt (s.finalIter cfg) a b :=
    (compareAt_eq (awake.finalIter sound first) (awake.finalIter sound second)).symm
  exact popFinished_ordered _ (Nat.le_refl _) (ordered.1.congr same)
    fun open' => (ordered.2 open').congr same

theorem launch_alike (groups : Nat → Nat → Group) (chunks waiter : Nat) (here : ¬(i = j ∧ k = t))
    (chunkSize size : Nat) :
    (setGroup groups j t ((groups j t).launch chunks waiter) i k).turn = (groups i k).turn ∧
    ((setGroup groups j t ((groups j t).launch chunks waiter) i k).Closing chunkSize size ↔
      (groups i k).Closing chunkSize size) := by
  rw [setGroup_other here]
  exact ⟨rfl,Iff.rfl⟩

/-- The chunk that a loop starts may be the last of the top, which is then in `can_erase`. -/
theorem launch_ordered {id : Nat} (sound : Sound cfg work groups s) (awake : Awake work groups s j id)
    {r : TensorRef} (top : Heap.top (s.readyQueue.get j) = some r) (more : u32 (r.key cfg) ∉ s.canErase)
    (launched : Sound cfg work (setGroup groups j r.tensorId
      ((groups j r.tensorId).launch chunks id)) (s.launch cfg j id r))
    (ordered : Heap.Ordered s.clients.customCompare (s.readyQueue.get j)) :
    (s.launch cfg j id r).InHeapOrder cfg j := by
  obtain ⟨rest,shape⟩ : ∃ rest, s.readyQueue.get j = r :: rest := by
    cases list : s.readyQueue.get j with
    | nil => simp [list,Heap.top] at top
    | cons head rest =>
      rw [list] at top
      cases top
      exact ⟨rest,rfl⟩
  have distinct := sound.readyDistinct j
  rw [shape,List.map_cons,List.nodup_cons] at distinct
  have other (y : TensorRef) (member : y ∈ rest) :
      (s.launch cfg j id r).finalIter cfg y = (s.clients.tensor y).iter := by
    have inside : y ∈ s.readyQueue.get j := by rw [shape]; exact List.mem_cons_of_mem r member
    obtain ⟨rfl,allocated⟩ := sound.readyAllocated j y inside
    have apart : ¬(y.job = y.job ∧ y.tensorId = r.tensorId) := fun same =>
      distinct.1 (same.2 ▸ List.mem_map_of_mem member)
    obtain ⟨turn,closing⟩ :=
      launch_alike groups chunks id apart cfg.chunkSize (work.size y.job y.tensorId)
    rw [← awake.finalIter sound inside,finalIter_eq sound allocated (sound.unfinished_of_member inside),
      finalIter_eq launched allocated (launched.unfinished_of_member inside)]
    simp only [Group.finalTurn,turn,closing]
  rw [InHeapOrder,show (s.launch cfg j id r).readyQueue = s.readyQueue from rfl,shape]
  rw [shape] at ordered
  refine ⟨ordered.belowTop.congr_tail fun a first b second =>
    compareAt_eq (other a first) (other b second),fun open' => ?_⟩
  have every (y : TensorRef) (member : y ∈ r :: rest) :
      (s.launch cfg j id r).finalIter cfg y = (s.clients.tensor y).iter := by
    rcases List.mem_cons.mp member with rfl | below
    · exact finalIter_of_open (open' y rfl)
    · exact other y below
  exact ordered.congr fun a first b second => compareAt_eq (every a first) (every b second)

theorem kickOff_ordered {id : Nat} (chunk : 1 ≤ cfg.chunkSize) (distinct : work.DistinctCutKeys cfg)
    (sound : Sound cfg work groups s) (awake : Awake work groups s j id)
    (ordered : ∀ i, s.InHeapOrder cfg i) (i : Nat) : (s.kickOff cfg j id).InHeapOrder cfg i := by
  have heap := awake.popped sound (ordered j)
  by_cases nothing : s.readyQueue.get j = []
  · rw [kickOff,if_pos (Or.inl nothing)]
    exact ordered i
  · rw [kickOff,if_neg (not_or.mpr ⟨nothing,not_not.mpr awake.active⟩)]
    have settled := popFinished_settled cfg s (Nat.le_refl (s.readyQueue.get j).length)
    obtain ⟨after,sound',awake',kept⟩ :=
      popFinished_sound distinct sound awake (s.readyQueue.get j).length
    have clients := popFinished_clients cfg j (s.readyQueue.get j).length s
    have others (i : Nat) (other : i ≠ j) :
        (popFinished cfg j (s.readyQueue.get j).length s).InHeapOrder cfg i := by
      obtain ⟨same,still⟩ := kept i other
      exact (ordered i).frame sound sound' (by rw [Table.get,same.ready,Table.get])
        (fun k => by rw [still]) fun k => by rw [still]
    rw [← clients] at heap
    generalize popFinished cfg j (s.readyQueue.get j).length s = t at *
    dsimp only
    cases top : Heap.top (t.readyQueue.get j) with
    | none =>
      by_cases here : i = j
      · subst here
        refine InHeapOrder.of_ordered (s := t) (heap.congr fun a first b second => ?_)
        exact compareAt_eq (awake'.finalIter sound' first) (awake'.finalIter sound' second)
      · exact others i here
    | some r =>
      have member : r ∈ t.readyQueue.get j := List.mem_of_mem_head? top
      obtain ⟨ofJob,allocated⟩ := sound'.readyAllocated j r member
      have layer : r.tensorId < (work.model j).length := ofJob ▸ allocated.2
      obtain ⟨chunks,_,launched⟩ := launch_sound chunk distinct sound' member
        (awake'.quiet _ layer) (settled r top) id
      by_cases here : i = j
      · subst here
        exact launch_ordered sound' awake' top (settled r top) launched heap
      · have alike (k : Nat) := launch_alike after chunks id
          (show ¬(i = j ∧ k = r.tensorId) from fun same => here same.1) cfg.chunkSize (work.size i k)
        exact (others i here).frame sound' launched rfl (fun k => (alike k).1) fun k => (alike k).2

theorem enqueue_ordered (chunk : 1 ≤ cfg.chunkSize) (distinct : work.DistinctCutKeys cfg)
    (inv : Inv cfg work s) {r : TensorRef} (may : s.clients.MayEnqueue work r)
    (room : Room cfg work (.enqueue r) s) (inOrder : InOrder cfg work (.enqueue r) s)
    (ordered : ∀ i, s.InHeapOrder cfg i) (i : Nat) : (s.enqueue cfg work r).InHeapOrder cfg i := by
  obtain ⟨groups,sound,attended,fresh⟩ := inv
  obtain ⟨before,length⟩ := sound.room may room
  have alike (i k : Nat) := arrive_alike groups r cfg.chunkSize (work.size i k) i k
  rw [enqueue_eq]
  split
  case isTrue full =>
    have all := length.symm.trans full
    have sound' := ready_sound distinct sound may all
    have queued (i : Nat) : ((s.push cfg r).ready r).InHeapOrder cfg i := by
      by_cases here : i = r.job
      · subst here
        by_cases finished : ∃ y ∈ s.readyQueue.get r.job, u32 (y.key cfg) ∈ s.canErase
        · exact inOrder full finished
        · push Not at finished
          exact ready_ordered sound may before (ordered r.job) finished
      · exact (ordered i).frame sound sound' (by simp [ready,push,here])
          (fun k => (alike i k).1) fun k => (alike i k).2
    split
    case isTrue active => exact queued i
    case isFalse inactive =>
      obtain ⟨head,awake,_⟩ := enqueue_head distinct sound attended fresh may all inactive
      exact kickOff_ordered chunk distinct head awake queued i
  case isFalse partly =>
    rw [length] at partly
    exact (ordered i).frame sound (push_partial_sound distinct sound may (by omega)) rfl
      (fun k => (alike i k).1) fun k => (alike i k).2

theorem complete_ordered (inv : Inv cfg work s) (called : call ∈ s.clients.calls)
    (ordered : s.InHeapOrder cfg i) :
    InHeapOrder cfg { s with clients := s.clients.answer cfg.chunkSize call } i := by
  obtain ⟨groups,sound,_⟩ := inv
  obtain ⟨j,t,w,chunks,waiter,outstanding,_,phase,sound'⟩ := complete_sound sound called
  refine ordered.frame sound sound' rfl (fun k => ?_) fun k => ?_
  all_goals
    by_cases here : i = j ∧ k = t
    case neg => rw [setGroup_other here]
    obtain ⟨rfl,rfl⟩ := here
    rw [setGroup_same]
  · rfl
  · simp [Group.Closing,phase]

theorem step_ordered (chunk : 1 ≤ cfg.chunkSize) (distinct : work.DistinctCutKeys cfg) (l : Label)
    (inv : Inv cfg work s) (room : Room cfg work l s) (inOrder : InOrder cfg work l s)
    (taken : step cfg work l s = some u) (ordered : ∀ i, s.InHeapOrder cfg i) (i : Nat) :
    u.InHeapOrder cfg i := by
  cases l with
  | enqueue r =>
    simp only [step] at taken
    split at taken
    · rename_i may
      cases taken
      exact enqueue_ordered chunk distinct inv may room inOrder ordered i
    · cases taken
  | complete call =>
    obtain ⟨clients,completed,taken⟩ := Option.bind_eq_some_iff.mp taken
    obtain ⟨called,rfl⟩ := Clients.complete_some completed
    cases taken
    exact complete_ordered inv called (ordered i)
  | resume id =>
    obtain ⟨j,known,taken⟩ := Option.bind_eq_some_iff.mp taken
    split at taken
    · rename_i allowed
      cases taken
      obtain ⟨groups,sound,attended,_⟩ := inv
      obtain ⟨after,sound',awake,_⟩ :=
        resume_head sound attended known allowed.1 allowed.2.1
      exact kickOff_ordered chunk distinct sound' awake ordered i
    · cases taken
  | finish w j =>
    simp only [step] at taken
    split at taken
    · rename_i may
      cases taken
      obtain ⟨groups,sound,_⟩ := inv
      by_cases here : i = j
      · subst here
        have gone : (cleanupForJob { s with clients := s.clients.finish w i } i).readyQueue.get i = [] :=
          Table.get_erase_same _ _
        refine InHeapOrder.of_ordered ?_
        rw [gone]
        exact Heap.ordered_nil
      · exact (ordered i).frame sound (finish_sound sound may)
          (Table.get_erase_other _ here) (fun _ => rfl) fun _ => Iff.rfl
    · cases taken

end ByteScheduler
end CloudSim
