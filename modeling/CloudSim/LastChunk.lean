import CloudSim.ByteSchedulerLossless
import CloudSim.DeficitRoundRobin
import CloudSim.Sincronia

/-! The rounds of one tensor: each starts with the scheduler's test for the last chunk, on one
worker's copy of the tensor, and ends with the calls of `allreduce` of all workers. -/
namespace CloudSim

/-- The schedulers that reduce a tensor chunk by chunk. -/
inductive ChunkScheduler where
  | byteScheduler
  | deficitRoundRobin
  | sincronia
  deriving DecidableEq

/-- Whether the round that starts is taken for the last one. `none` is a division by
`CHUNK_SIZE`. -/
def ChunkScheduler.lastRound (cfg : Config) (t : Tensor) : ChunkScheduler → Option Bool
  | byteScheduler => if cfg.chunkSize = 0 then none else some (ByteScheduler.lastChunk cfg t)
  | deficitRoundRobin =>
    if cfg.chunkSize = 0 then none
    else some (decide (t.size ≤ u64 (t.allreducedSize + cfg.chunkSize)))
  | sincronia => some (decide (t.size ≤ u64 (t.allreducedSize + cfg.chunkSize)))

def Config.chunkRounds (cfg : Config) (size : Nat) : Nat :=
  if cfg.chunkSize = 0 then 1 else (size + cfg.chunkSize - 1) / cfg.chunkSize

section models
variable {cfg : Config}

/-- The loop of a job in `ByteScheduler`. -/
theorem ByteScheduler.launch_lastRound (s : ByteScheduler) (j id : Nat) (tensor : TensorRef)
    (decided : ChunkScheduler.byteScheduler.lastRound cfg (s.clients.tensor tensor) = some last) :
    (s.launch cfg j id tensor).canErase =
      if last then insert (u32 (tensor.key cfg)) s.canErase else s.canErase := by
  simp only [ChunkScheduler.lastRound] at decided
  split at decided
  · cases decided
  · cases decided
    rfl

/-- The loop over the involved jobs in `DeficitRoundRobin`. -/
theorem DeficitRoundRobin.reduce_lastRound {id : Nat} {state state' : DeficitRoundRobin × Table Nat Nat}
    (reduced : DeficitRoundRobin.reduce cfg id state jobId = some state') :
    ∃ front tensors popped, state'.1.picks = state.1.picks ++ [⟨tensors,popped⟩] ∧
      ChunkScheduler.deficitRoundRobin.lastRound cfg (state.1.clients.tensor front) =
        some popped := by
  obtain ⟨s,quantums⟩ := state
  obtain ⟨⟨jid,pq⟩,_,reduced⟩ := Option.bind_eq_some_iff.mp reduced
  obtain ⟨allTensors,_,reduced⟩ := Option.bind_eq_some_iff.mp reduced
  obtain ⟨front,_,reduced⟩ := Option.bind_eq_some_iff.mp reduced
  dsimp only at reduced
  split at reduced
  · cases reduced
  · rename_i chunked
    refine ⟨front.tensor,?_⟩
    simp only [ChunkScheduler.lastRound,if_neg chunked]
    split at reduced
    · rename_i last
      cases reduced
      exact ⟨_,true,rfl,by simp [last]⟩
    · rename_i more
      cases reduced
      exact ⟨_,false,rfl,by simpa using more⟩

/-- The loop over the involved keys in `Sincronia`. -/
theorem Sincronia.reduce_lastRound {id : Nat} {s s' : Sincronia}
    (reduced : s.reduce cfg id key = some s') :
    ∃ front last, s'.canErase =
        (if last then insert (u32 (TensorRef.key cfg front)) s.canErase else s.canErase) ∧
      ChunkScheduler.sincronia.lastRound cfg (s.clients.tensor front) = some last := by
  obtain ⟨front,_,reduced⟩ := Option.bind_eq_some_iff.mp reduced
  cases reduced
  refine ⟨front.tensor,_,?_,rfl⟩
  simp

end models

/-- One iteration of a tensor. `tensor` holds the copy of each worker, `outstanding` the workers
whose calls have not ended. `decisions` and `chunks` are history: the tests of the scheduler, and
the sizes that each worker reduced. -/
structure Iteration where
  tensor : Nat → Tensor
  outstanding : List Nat := []
  decisions : List Bool := []
  chunks : Nat → List Nat := fun _ => []

namespace Iteration

/-- A round starts with a test on the copy of some worker; a worker's call ends. -/
inductive Label where
  | start (front : Nat)
  | answer (w : Nat)

section step
variable (cfg : Config) (sched : ChunkScheduler) (wids : List Nat)

/-- A scheduler that has taken a round for the last one starts no other. -/
def start (s : Iteration) (front : Nat) : Option Iteration :=
  if s.outstanding = [] ∧ front ∈ wids ∧ true ∉ s.decisions then do
    let last ← sched.lastRound cfg (s.tensor front)
    return { s with outstanding := wids, decisions := s.decisions ++ [last] }
  else none

def answer (s : Iteration) (w : Nat) : Iteration :=
  let size := Worker.allreduceSize cfg.chunkSize (s.tensor w)
  { s with
    tensor := Function.update s.tensor w (Worker.advanceTensor (s.tensor w) size)
    outstanding := s.outstanding.erase w
    chunks := Function.update s.chunks w (s.chunks w ++ [size]) }

def step (l : Label) (s : Iteration) : Option Iteration :=
  match l with
  | .start front => s.start cfg sched wids front
  | .answer w => if w ∈ s.outstanding then some (s.answer cfg w) else none

def Reaches (tensor : Nat → Tensor) (s : Iteration) : Prop :=
  Runs.Run (step cfg sched wids) Runs.anyStep { tensor := tensor } s

/-- In every run, the round that the scheduler takes for the last one is the one at whose end all
workers start their next iteration, and the rounds reduce the whole tensor in equal chunks and a
rest. -/
structure Agree (tensor : Nat → Tensor) (size : Nat) : Prop where
  continues : ∀ s, Reaches cfg sched wids tensor s → s.outstanding = [] → true ∉ s.decisions →
    ∀ front ∈ wids, ∃ t, s.start cfg sched wids front = some t
  bounded : ∀ s, Reaches cfg sched wids tensor s → s.decisions.length ≤ cfg.chunkRounds size
  decided : ∀ s, Reaches cfg sched wids tensor s → s.outstanding = [] → true ∈ s.decisions →
    s.decisions.length = cfg.chunkRounds size ∧ ∀ w ∈ wids, (s.chunks w).sum = size ∧
      (s.tensor w).allreducedSize = 0 ∧ (s.tensor w).iter = u32 ((tensor w).iter + 1)
  undecided : ∀ s, Reaches cfg sched wids tensor s → s.outstanding = [] → true ∉ s.decisions →
    ∀ w ∈ wids, (s.tensor w).iter = (tensor w).iter

end step

end Iteration

namespace Config
variable {cfg : Config}

theorem chunkRounds_pos (positive : 1 ≤ size) : 0 < cfg.chunkRounds size := by
  unfold chunkRounds
  split
  · exact Nat.zero_lt_one
  · exact Nat.div_pos (by omega) (by omega)

theorem lt_chunkRounds (inside : m < cfg.chunkRounds size) : m = 0 ∨ m * cfg.chunkSize < size := by
  unfold chunkRounds at inside
  split at inside
  · omega
  · rename_i chunked
    have whole := (Nat.le_div_iff_mul_le (Nat.pos_of_ne_zero chunked)).mp inside
    rw [Nat.succ_mul] at whole
    omega

theorem last_iff_chunkRounds (inside : m < cfg.chunkRounds size) :
    Group.Last cfg.chunkSize size m ↔ m + 1 = cfg.chunkRounds size := by
  unfold Group.Last
  unfold chunkRounds at inside ⊢
  split at inside
  · rename_i whole
    simp only [whole,if_true,true_or,true_iff]
    omega
  · rename_i chunked
    have positive := Nat.pos_of_ne_zero chunked
    rw [if_neg chunked,or_iff_right chunked]
    have upper : (size + cfg.chunkSize - 1) / cfg.chunkSize ≤ m + 1 ↔
        size ≤ (m + 1) * cfg.chunkSize := by
      rw [← Nat.lt_succ_iff,Nat.div_lt_iff_lt_mul positive,Nat.succ_mul]
      omega
    rw [← upper]
    omega

end Config

namespace Iteration

/-- A worker's copy of the tensor after `m` rounds, with the sizes that it reduced. -/
structure Copy (cfg : Config) (size : Nat) (first : Tensor) (m : Nat) (t : Tensor)
    (sent : List Nat) : Prop where
  sized : t.size = size
  part : m < cfg.chunkRounds size →
    t.allreducedSize = m * cfg.chunkSize ∧ t.iter = first.iter ∧ sent.sum = m * cfg.chunkSize
  whole : m = cfg.chunkRounds size →
    t.allreducedSize = 0 ∧ t.iter = u32 (first.iter + 1) ∧ sent.sum = size

theorem Copy.advance {cfg : Config} {size m : Nat} {first t : Tensor} {sent : List Nat}
    (fits : size < 2^64) (copy : Copy cfg size first m t sent) (inside : m < cfg.chunkRounds size) :
    Copy cfg size first (m + 1)
      (Worker.advanceTensor t (Worker.allreduceSize cfg.chunkSize t))
      (sent ++ [Worker.allreduceSize cfg.chunkSize t]) := by
  obtain ⟨reduced,iter,sum⟩ := copy.part inside
  have rounds := Config.lt_chunkRounds inside
  have last := Config.last_iff_chunkRounds inside
  obtain ⟨sized,progress,turn⟩ := advanceTensor_progress fits copy.sized reduced rounds
  by_cases final : Group.Last cfg.chunkSize size m
  · have total := allreduceSize_last fits copy.sized reduced rounds final
    rw [if_pos final] at progress turn
    refine ⟨sized,fun more => ?_,fun _ => ⟨progress,?_,?_⟩⟩
    · have := last.mp final
      omega
    · rw [turn,iter]
    · rw [List.sum_append,sum,List.sum_singleton,← reduced,total]
  · have chunk := allreduceSize_more fits copy.sized reduced final
    rw [if_neg final] at progress turn
    refine ⟨sized,fun _ => ⟨progress,turn.trans iter,?_⟩,fun whole => absurd (last.mpr whole) final⟩
    rw [List.sum_append,sum,List.sum_singleton,chunk,Nat.succ_mul]

structure Kept (cfg : Config) (wids : List Nat) (tensor : Nat → Tensor) (size : Nat)
    (s : Iteration) : Prop where
  distinct : s.outstanding.Nodup
  inside : s.outstanding ⊆ wids
  rounds : s.decisions.length ≤ cfg.chunkRounds size
  started : s.outstanding ≠ [] → 0 < s.decisions.length
  copies : ∀ w ∈ wids, Copy cfg size (tensor w)
    (s.decisions.length - if w ∈ s.outstanding then 1 else 0) (s.tensor w) (s.chunks w)

section kept
variable {cfg : Config} {sched : ChunkScheduler} {wids : List Nat} {tensor : Nat → Tensor}
  {size : Nat} {s t : Iteration}

theorem Kept.copy (kept : Kept cfg wids tensor size s) (between : s.outstanding = [])
    (member : w ∈ wids) :
    Copy cfg size (tensor w) s.decisions.length (s.tensor w) (s.chunks w) := by
  have copy := kept.copies w member
  rwa [between,if_neg List.not_mem_nil,Nat.sub_zero] at copy

theorem initial_kept (sized : ∀ w ∈ wids, (tensor w).size = size)
    (fresh : ∀ w ∈ wids, (tensor w).allreducedSize = 0) (positive : 1 ≤ size) :
    Kept cfg wids tensor size { tensor := tensor } where
  distinct := List.nodup_nil
  inside := List.nil_subset _
  rounds := Nat.zero_le _
  started some := absurd rfl some
  copies w member := by
    have rounds : 0 < cfg.chunkRounds size := Config.chunkRounds_pos positive
    refine ⟨sized w member,fun _ => ⟨?_,rfl,?_⟩,fun none => ?_⟩
    · simpa using fresh w member
    · simp
    · simp only [List.length_nil,Nat.zero_sub] at none
      omega

theorem start_spec (taken : s.start cfg sched wids front = some t) :
    s.outstanding = [] ∧ front ∈ wids ∧ true ∉ s.decisions ∧
      ∃ last, sched.lastRound cfg (s.tensor front) = some last ∧
        t = { s with outstanding := wids, decisions := s.decisions ++ [last] } := by
  unfold start at taken
  split at taken
  · rename_i ready
    obtain ⟨last,decided,same⟩ := Option.bind_eq_some_iff.mp taken
    cases same
    exact ⟨ready.1,ready.2.1,ready.2.2,last,decided,rfl⟩
  · cases taken

theorem Kept.start (kept : Kept cfg wids tensor size s) (distinct : wids.Nodup)
    (between : s.outstanding = []) (more : s.decisions.length < cfg.chunkRounds size)
    (last : Bool) : Kept cfg wids tensor size
      { s with outstanding := wids, decisions := s.decisions ++ [last] } where
  distinct := distinct
  inside := List.Subset.refl _
  rounds := by
    rw [List.length_append]
    exact more
  started _ := by simp
  copies w member := by
    have copy := kept.copy between member
    simpa [member] using copy

theorem Kept.answer (fits : size < 2^64) (kept : Kept cfg wids tensor size s)
    (waiting : w ∈ s.outstanding) : Kept cfg wids tensor size (s.answer cfg w) where
  distinct := kept.distinct.erase w
  inside := fun v member => kept.inside (List.mem_of_mem_erase member)
  rounds := kept.rounds
  started _ := kept.started (List.ne_nil_of_mem waiting)
  copies v member := by
    have before := kept.started (List.ne_nil_of_mem waiting)
    have rounds := kept.rounds
    have copy := kept.copies v member
    simp only [Iteration.answer,kept.distinct.mem_erase_iff]
    by_cases same : v = w
    · subst same
      rw [if_pos waiting] at copy
      have next := copy.advance fits (by omega)
      rw [Nat.sub_add_cancel before] at next
      simpa using next
    · simpa [same] using copy

theorem Kept.drain (fits : size < 2^64) (kept : Kept cfg wids tensor size s)
    (run : Reaches cfg sched wids tensor s) : ∃ t, Reaches cfg sched wids tensor t ∧
      Kept cfg wids tensor size t ∧ t.outstanding = [] ∧ t.decisions = s.decisions := by
  obtain ⟨n,length⟩ : ∃ n, s.outstanding.length = n := ⟨_,rfl⟩
  induction n generalizing s with
  | zero => exact ⟨s,run,kept,List.eq_nil_of_length_eq_zero length,rfl⟩
  | succ n ih =>
    obtain ⟨w,waiting⟩ := List.exists_mem_of_length_pos (by omega : 0 < s.outstanding.length)
    have taken : step cfg sched wids (.answer w) s = some (s.answer cfg w) := if_pos waiting
    have after : Reaches cfg sched wids tensor (s.answer cfg w) := .snoc run trivial taken
    have shorter : (s.answer cfg w).outstanding.length = n := by
      simp [Iteration.answer,List.length_erase_of_mem waiting,length]
    have ended := ih (kept.answer fits waiting) after shorter
    exact ended

theorem step_kept (fits : size < 2^64) (distinct : wids.Nodup)
    (decided : ∀ m < cfg.chunkRounds size, ∀ t : Tensor, t.size = size →
      t.allreducedSize = m * cfg.chunkSize →
      sched.lastRound cfg t = some (decide (m + 1 = cfg.chunkRounds size)))
    (holds : Kept cfg wids tensor size s ∧
      (true ∈ s.decisions ↔ s.decisions.length = cfg.chunkRounds size))
    (taken : step cfg sched wids l s = some t) : Kept cfg wids tensor size t ∧
      (true ∈ t.decisions ↔ t.decisions.length = cfg.chunkRounds size) := by
  obtain ⟨kept,known⟩ := holds
  cases l with
  | start front =>
    obtain ⟨between,member,open',last,found,rfl⟩ := start_spec taken
    have rounds := kept.rounds
    have more : s.decisions.length < cfg.chunkRounds size :=
      Nat.lt_of_le_of_ne rounds fun all => open' (known.mpr all)
    have copy := kept.copy between member
    rw [decided _ more _ copy.sized (copy.part more).1] at found
    obtain rfl := Option.some.inj found
    refine ⟨kept.start distinct between more _,?_⟩
    simp [open']
  | answer w =>
    simp only [step] at taken
    split at taken
    · rename_i waiting
      obtain rfl := Option.some.inj taken
      exact ⟨kept.answer fits waiting,known⟩
    · cases taken

theorem agree_of_decided (fits : size < 2^64) (distinct : wids.Nodup)
    (sized : ∀ w ∈ wids, (tensor w).size = size)
    (fresh : ∀ w ∈ wids, (tensor w).allreducedSize = 0) (positive : 1 ≤ size)
    (decided : ∀ m < cfg.chunkRounds size, ∀ t : Tensor, t.size = size →
      t.allreducedSize = m * cfg.chunkSize →
      sched.lastRound cfg t = some (decide (m + 1 = cfg.chunkRounds size))) :
    Agree cfg sched wids tensor size := by
  have rounds : 0 < cfg.chunkRounds size := Config.chunkRounds_pos positive
  let Known (s : Iteration) : Prop := Kept cfg wids tensor size s ∧
    (true ∈ s.decisions ↔ s.decisions.length = cfg.chunkRounds size)
  have always (s) (run : Reaches cfg sched wids tensor s) : Known s := by
    have known : Known s := run.invariant
      (fun _ _ _ holds _ taken => step_kept fits distinct decided holds taken)
      ⟨initial_kept sized fresh positive,by simpa using rounds.ne⟩
    exact known
  have more {s : Iteration} (run : Reaches cfg sched wids tensor s) (open' : true ∉ s.decisions) :
      s.decisions.length < cfg.chunkRounds size :=
    Nat.lt_of_le_of_ne (always s run).1.rounds fun all => open' ((always s run).2.mpr all)
  refine ⟨fun s run between open' front member => ?_,fun s run => (always s run).1.rounds,
    fun s run between last => ?_,fun s run between open' w member => ?_⟩
  · have copy := (always s run).1.copy between member
    have found := decided _ (more run open') _ copy.sized (copy.part (more run open')).1
    rw [start,if_pos ⟨between,member,open'⟩,found]
    exact ⟨_,rfl⟩
  · have all := (always s run).2.mp last
    refine ⟨all,fun w member => ?_⟩
    obtain ⟨reduced,iter,sum⟩ := ((always s run).1.copy between member).whole all
    exact ⟨sum,reduced,iter⟩
  · exact (((always s run).1.copy between member).part (more run open')).2.1

/-- A scheduler that takes no round for the last one reduces a tensor that its workers are done
with. -/
theorem not_agree_of_never (fits : size < 2^64) (some' : wids ≠ []) (distinct : wids.Nodup)
    (sized : ∀ w ∈ wids, (tensor w).size = size)
    (fresh : ∀ w ∈ wids, (tensor w).allreducedSize = 0) (positive : 1 ≤ size)
    (never : ∀ m < cfg.chunkRounds size, ∀ t : Tensor, t.size = size →
      t.allreducedSize = m * cfg.chunkSize → sched.lastRound cfg t = some false) :
    ¬Agree cfg sched wids tensor size := by
  intro agree
  obtain ⟨front,member⟩ := List.exists_mem_of_ne_nil wids some'
  have drive (n : Nat) (le : n ≤ cfg.chunkRounds size) : ∃ s, Reaches cfg sched wids tensor s ∧
      Kept cfg wids tensor size s ∧ s.outstanding = [] ∧ s.decisions = List.replicate n false := by
    induction n with
    | zero => exact ⟨_,.nil,initial_kept sized fresh positive,rfl,rfl⟩
    | succ n ih =>
      obtain ⟨s,run,kept,between,decisions⟩ := ih (by omega)
      have length : s.decisions.length = n := by simp [decisions]
      have more : s.decisions.length < cfg.chunkRounds size := by omega
      have copy := kept.copy between member
      have found := never _ more _ copy.sized (copy.part more).1
      have begun : step cfg sched wids (.start front) s =
          some { s with outstanding := wids, decisions := s.decisions ++ [false] } := by
        rw [step,start,if_pos ⟨between,member,by simp [decisions]⟩,found]
        rfl
      obtain ⟨t,after,kept,ended,same⟩ := (kept.start distinct between more false).drain fits
        (.snoc run trivial begun)
      refine ⟨t,after,kept,ended,?_⟩
      rw [same,decisions]
      exact (List.replicate_succ' ..).symm
  obtain ⟨s,run,kept,between,decisions⟩ := drive _ (Nat.le_refl _)
  have still := agree.undecided s run between (by simp [decisions]) front member
  obtain ⟨_,iter,_⟩ := (kept.copy between member).whole (by simp [decisions])
  rw [still,u32] at iter
  omega

end kept

end Iteration

namespace ChunkScheduler
variable {cfg : Config} {size m : Nat} {t : Tensor}

/-- The sums that `DeficitRoundRobin` and `Sincronia` compare with the size do not wrap around, and
there is a chunk size to divide by. -/
def Fits (cfg : Config) (size : Nat) (sched : ChunkScheduler) : Prop :=
  0 < cfg.chunkSize ∧
    (sched = .byteScheduler ∨ cfg.chunkRounds size * cfg.chunkSize < 2^64)

theorem decided_of_fits (fits : size < 2^64) (sched : ChunkScheduler)
    (regular : sched.Fits cfg size) (inside : m < cfg.chunkRounds size) (sized : t.size = size)
    (reduced : t.allreducedSize = m * cfg.chunkSize) :
    sched.lastRound cfg t = some (decide (m + 1 = cfg.chunkRounds size)) := by
  obtain ⟨positive,bound⟩ := regular
  have rounds := Config.lt_chunkRounds inside
  have last := Config.last_iff_chunkRounds inside
  have sum (bound : cfg.chunkRounds size * cfg.chunkSize < 2^64) :
      (t.size ≤ u64 (t.allreducedSize + cfg.chunkSize)) ↔ m + 1 = cfg.chunkRounds size := by
    have part := Nat.mul_le_mul_right cfg.chunkSize (show m + 1 ≤ cfg.chunkRounds size from inside)
    rw [Nat.succ_mul] at part
    rw [sized,reduced,u64_of_lt (by omega),← last,Group.Last,or_iff_right positive.ne',
      Nat.succ_mul]
  cases sched with
  | byteScheduler =>
    rw [lastRound,if_neg positive.ne',
      ByteScheduler.lastChunk_iff positive fits sized reduced rounds]
    simp only [last]
  | deficitRoundRobin =>
    have bound := bound.resolve_left (by decide)
    rw [lastRound,if_neg positive.ne']
    simp only [sum bound]
  | sincronia =>
    have bound := bound.resolve_left (by decide)
    simp only [lastRound,sum bound]

/-- Where the last sum wraps around, it stays below the size. -/
theorem never_of_wrap (fits : size < 2^64) (positive : 1 ≤ size) (chunk : cfg.chunkSize < 2^32)
    (wraps : cfg.chunkSize = 0 ∨ 2^64 ≤ cfg.chunkRounds size * cfg.chunkSize)
    (inside : m < cfg.chunkRounds size) (sized : t.size = size)
    (reduced : t.allreducedSize = m * cfg.chunkSize) :
    ¬t.size ≤ u64 (t.allreducedSize + cfg.chunkSize) := by
  rw [sized,reduced]
  rcases wraps with none | wraps
  · rw [none]
    simp only [Nat.mul_zero,u64,Nat.add_zero,Nat.zero_mod]
    omega
  · have last := Config.last_iff_chunkRounds inside
    have rounds := Config.lt_chunkRounds inside
    rw [← Nat.succ_mul]
    by_cases final : m + 1 = cfg.chunkRounds size
    · rw [Nat.succ_eq_add_one,final,u64]
      have close : cfg.chunkRounds size * cfg.chunkSize < size + cfg.chunkSize := by
        rw [← final,Nat.succ_mul]
        rcases rounds with rfl | below <;> omega
      omega
    · have more := mt last.mp final
      simp only [Group.Last,not_or,Nat.not_le] at more
      rw [Nat.succ_eq_add_one,u64_of_lt (by omega)]
      omega

end ChunkScheduler

namespace Iteration

/-- Scheduler and workers agree on the last chunk in every run, whatever the number of workers,
exactly when there is a chunk size and the scheduler's sum does not wrap around. -/
theorem agree_iff (cfg : Config) (sched : ChunkScheduler) (wids : List Nat) (tensor : Nat → Tensor)
    (size : Nat) (workers : wids ≠ []) (distinct : wids.Nodup)
    (sized : ∀ w ∈ wids, (tensor w).size = size)
    (fresh : ∀ w ∈ wids, (tensor w).allreducedSize = 0) (positive : 1 ≤ size) (fits : size < 2^64)
    (chunk : cfg.chunkSize < 2^32) :
    Agree cfg sched wids tensor size ↔ sched.Fits cfg size := by
  constructor
  · intro agree
    by_contra irregular
    have wraps : cfg.chunkSize = 0 ∨
        sched ≠ .byteScheduler ∧ 2^64 ≤ cfg.chunkRounds size * cfg.chunkSize := by
      rcases Nat.eq_zero_or_pos cfg.chunkSize with none | some
      · exact Or.inl none
      · refine Or.inr ⟨fun same => irregular ⟨some,Or.inl same⟩,Nat.not_lt.mp fun below => ?_⟩
        exact irregular ⟨some,Or.inr below⟩
    have sum (m) (inside : m < cfg.chunkRounds size) (t : Tensor) (same : t.size = size)
        (reduced : t.allreducedSize = m * cfg.chunkSize) :=
      ChunkScheduler.never_of_wrap fits positive chunk (wraps.imp_right And.right) inside same
        reduced
    -- without a chunk size the division ends the run before the first round
    have divides (fails : ∀ t, sched.lastRound cfg t = none) : False := by
      obtain ⟨front,member⟩ := List.exists_mem_of_ne_nil wids workers
      obtain ⟨t,begun⟩ := agree.continues _ .nil rfl List.not_mem_nil front member
      obtain ⟨_,_,_,_,found,_⟩ := start_spec begun
      rw [fails] at found
      cases found
    cases sched with
    | byteScheduler =>
      rcases wraps with none | ⟨other,_⟩
      · exact divides fun t => if_pos none
      · exact other rfl
    | deficitRoundRobin =>
      rcases Nat.eq_zero_or_pos cfg.chunkSize with none | some
      · exact divides fun t => if_pos none
      · refine not_agree_of_never fits workers distinct sized fresh positive ?_ agree
        intro m inside t same reduced
        rw [ChunkScheduler.lastRound,if_neg some.ne',decide_eq_false (sum m inside t same reduced)]
    | sincronia =>
      refine not_agree_of_never fits workers distinct sized fresh positive ?_ agree
      intro m inside t same reduced
      rw [ChunkScheduler.lastRound,decide_eq_false (sum m inside t same reduced)]
  · intro regular
    exact agree_of_decided fits distinct sized fresh positive fun m inside t same reduced =>
      ChunkScheduler.decided_of_fits fits sched regular inside same reduced

/-- Chunks of the given size. -/
def chunked (chunkSize : Nat) : Config := ⟨1,1,chunkSize,fun _ layer => layer⟩

theorem agree_iff_five : Agree (chunked 2) .deficitRoundRobin [0,1,2] (fun _ => { size := 5 }) 5 ↔
    ChunkScheduler.deficitRoundRobin.Fits (chunked 2) 5 :=
  agree_iff (chunked 2) .deficitRoundRobin [0,1,2] (fun _ => { size := 5 }) 5 (by decide)
    (by decide) (fun _ _ => rfl) (fun _ _ => rfl) (by decide) (by decide) (by decide)

/-- A `CHUNK_SIZE` of 0 means the whole tensor to the workers, but a chunk of nothing to the
test. -/
theorem whole_tensor_never_last :
    ¬Agree (chunked 0) .sincronia [0,1] (fun _ => { size := 3 }) 3 := by
  apply not_agree_of_never (by decide) (by decide) (by decide) (fun _ _ => rfl) (fun _ _ => rfl)
    (by decide)
  intro m inside t sized reduced
  have less := ChunkScheduler.never_of_wrap (by decide) (by decide) (by decide) (Or.inl rfl) inside
    sized reduced
  rw [ChunkScheduler.lastRound,decide_eq_false less]

end Iteration
end CloudSim
