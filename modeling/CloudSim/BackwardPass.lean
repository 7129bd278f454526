import CloudSim.Pipeline
import Mathlib.Algebra.Order.BigOperators.Group.List

/-! The order in which `execute_job` comes to `cs->enqueue`: an iteration enqueues the tensors of the
job from the last to the first, after the forward locks of all of them were granted. While no group
is full and no collective is in progress, some worker of every unfinished job goes on. -/
namespace CloudSim

namespace Clients

def Reaches (work : Workload) (c : Clients) (r : TensorRef) : Prop :=
  ∀ t < (work.model r.job).length,
    c.enqueued r ≤ (c.tensor ⟨r.machine,r.job,t⟩).iter ∧
      (r.tensorId < t → c.enqueued ⟨r.machine,r.job,t⟩ = c.enqueued r + 1)

instance (work : Workload) (c : Clients) (r : TensorRef) : Decidable (c.Reaches work r) :=
  inferInstanceAs (Decidable (∀ t < _, _ ∧ (_ → _)))

/-- No tensor is enqueued more often than a later one, nor more than once less often. -/
structure InOrder (work : Workload) (c : Clients) : Prop where
  within : ∀ r, c.enqueued r ≤ work.nIter r.job
  backward : ∀ w j t u, w ∈ work.widsAllocated j → t ≤ u → u < (work.model j).length →
    c.enqueued ⟨w,j,t⟩ ≤ c.enqueued ⟨w,j,u⟩ ∧ c.enqueued ⟨w,j,u⟩ ≤ c.enqueued ⟨w,j,t⟩ + 1

variable {work : Workload} {c : Clients}

theorem InOrder.initial (work : Workload) : InOrder work (Clients.initial work) :=
  ⟨fun _ => Nat.zero_le _,fun _ _ _ _ _ _ _ => ⟨Nat.le_refl _,Nat.zero_le _⟩⟩

theorem InOrder.frame (order : InOrder work c) {d : Clients} (same : d.enqueued = c.enqueued) :
    InOrder work d := by
  constructor
  case within => exact same ▸ order.within
  case backward => exact same ▸ order.backward

/-- An enqueue in the order of the backward pass; no tensor is reduced before it is enqueued. -/
theorem InOrder.enqueue (order : InOrder work c) {r : TensorRef} (may : c.MayEnqueue work r)
    (reaches : c.Reaches work r) (reduced : ∀ t < (work.model r.job).length,
      (c.tensor ⟨r.machine,r.job,t⟩).iter ≤ c.enqueued ⟨r.machine,r.job,t⟩) :
    InOrder work (c.enqueue r) := by
  obtain ⟨v,i,k⟩ := r
  obtain ⟨⟨worker,layer⟩,_,turnsLeft,_⟩ := may
  dsimp only at worker layer turnsLeft reduced
  constructor
  case within =>
    intro r
    have old := order.within r
    by_cases same : r = ⟨v,i,k⟩
    · subst same
      simpa [Clients.enqueue] using Nat.succ_le_of_lt turnsLeft
    · simpa [Clients.enqueue,same] using old
  case backward =>
    intro w j t u member most inside
    have old := order.backward w j t u member most inside
    by_cases here : w = v ∧ j = i
    · obtain ⟨rfl,rfl⟩ := here
      by_cases lower : t = k
      · subst lower
        by_cases upper : u = t
        · subst upper
          simp [Clients.enqueue]
        · have next := (reaches u inside).2 (show t < u by omega)
          dsimp only at next
          simp only [Clients.enqueue,TensorRef.mk.injEq,true_and,upper,if_false,if_true]
          omega
      · by_cases upper : u = k
        · subst upper
          -- the forward locks of the iteration were granted, so tensor `t` was enqueued before it
          have before : t < (work.model j).length := most.trans_lt inside
          have granted := (reaches t before).1
          have served := reduced t before
          dsimp only at granted
          simp only [Clients.enqueue,TensorRef.mk.injEq,true_and,lower,if_false,if_true]
          omega
        · simpa [Clients.enqueue,lower,upper] using old
    · have other (l : Nat) : (⟨w,j,l⟩ : TensorRef) ≠ ⟨v,i,k⟩ := by
        rintro ⟨⟩
        exact here ⟨rfl,rfl⟩
      simpa [Clients.enqueue,other] using old

section measure
variable (work : Workload) (c : Clients)

/-- The enqueues that a worker of a job has before it, and its end. -/
def toil (w j : Nat) : Nat :=
  (if c.finished w j then 0 else 1) +
    ((List.range (work.model j).length).map fun t => work.nIter j - c.enqueued ⟨w,j,t⟩).sum

def left (jobs : List Nat) : Nat :=
  (jobs.map fun j => ((work.widsAllocated j).map fun w => c.toil work w j).sum).sum

variable {work c}

theorem left_lt {d : Clients} {jobs : List Nat} (most : ∀ w j, d.toil work w j ≤ c.toil work w j)
    (submitted : j ∈ jobs) (worker : w ∈ work.widsAllocated j)
    (less : d.toil work w j < c.toil work w j) : d.left work jobs < c.left work jobs :=
  List.sum_lt_sum _ _ (fun i _ => List.sum_le_sum fun v _ => most v i)
    ⟨j,submitted,List.sum_lt_sum _ _ (fun v _ => most v j) ⟨w,worker,less⟩⟩

theorem left_enqueue {jobs : List Nat} {r : TensorRef} (may : c.MayEnqueue work r)
    (submitted : r.job ∈ jobs) : (c.enqueue r).left work jobs < c.left work jobs := by
  obtain ⟨v,i,k⟩ := r
  obtain ⟨⟨worker,layer⟩,_,turnsLeft,_⟩ := may
  dsimp only at worker layer turnsLeft submitted
  have each (w j t : Nat) : work.nIter j - (c.enqueue ⟨v,i,k⟩).enqueued ⟨w,j,t⟩ ≤
      work.nIter j - c.enqueued ⟨w,j,t⟩ := by
    by_cases same : (⟨w,j,t⟩ : TensorRef) = ⟨v,i,k⟩
    · simp only [Clients.enqueue,same,if_true]
      omega
    · simp [Clients.enqueue,same]
  refine left_lt (fun w j => ?_) submitted worker ?_
  · exact Nat.add_le_add_left (List.sum_le_sum fun t _ => each w j t) _
  · refine Nat.add_lt_add_left (List.sum_lt_sum _ _ (fun t _ => each v i t) ?_) _
    refine ⟨k,List.mem_range.mpr layer,?_⟩
    simp only [Clients.enqueue,if_true]
    omega

theorem left_finish {jobs : List Nat} (may : c.MayFinish work w j) (submitted : j ∈ jobs) :
    (c.finish w j).left work jobs < c.left work jobs := by
  obtain ⟨worker,unfinished,_⟩ := may
  refine left_lt (fun v i => ?_) submitted worker ?_
  · refine Nat.add_le_add_right ?_ _
    by_cases here : v = w ∧ i = j
    · simp [Clients.finish,here]
    · simp [Clients.finish,here]
  · refine Nat.add_lt_add_right ?_ _
    simp [Clients.finish,unfinished]

end measure
end Clients

/-- Of the places where `f` is least, the last one. -/
theorem exists_last_least (f : Nat → Nat) (inside : 0 < m) :
    ∃ t < m, ∀ u < m, f t ≤ f u ∧ (t < u → f t < f u) := by
  induction m with
  | zero => cases inside
  | succ m ih =>
    rcases Nat.eq_zero_or_pos m with rfl | some
    · refine ⟨0,inside,fun u below => ?_⟩
      obtain rfl : u = 0 := by omega
      exact ⟨Nat.le_refl _,fun after => absurd after (Nat.lt_irrefl _)⟩
    · obtain ⟨t,within,least⟩ := ih some
      by_cases last : f m ≤ f t
      · refine ⟨m,Nat.lt_succ_self m,fun u below => ⟨?_,fun after => by omega⟩⟩
        rcases Nat.lt_succ_iff_lt_or_eq.mp below with before | rfl
        · exact last.trans (least u before).1
        · exact Nat.le_refl _
      · refine ⟨t,within.trans (Nat.lt_succ_self m),fun u below => ?_⟩
        rcases Nat.lt_succ_iff_lt_or_eq.mp below with before | rfl
        · exact least u before
        · exact ⟨by omega,fun _ => by omega⟩

namespace Pipelined
variable {work : Workload} {chunkSize : Nat} {groups : Nat → Nat → Group}
  {early : Nat → Nat → List Nat} {c : Clients}

theorem iter_le_enqueued (pipe : Pipelined work chunkSize groups early c)
    (layer : t < (work.model j).length) (worker : w ∈ work.widsAllocated j) :
    (c.tensor ⟨w,j,t⟩).iter ≤ c.enqueued ⟨w,j,t⟩ := by
  have rep := pipe.consistent.represents j t layer
  have iter : (c.tensor ⟨w,j,t⟩).iter = _ := rep.iter w worker
  rw [iter,pipe.enqueued_eq layer worker]
  cases ends : (groups j t).ended chunkSize (work.size j t) w with
  | false => simp only [Bool.toNat_false]; omega
  | true =>
    have later : (groups j t).phase ≠ .gathering 0 := fun phase => by
      simp [Group.ended,phase] at ends
    rw [if_pos (rep.mem_arrived (rep.wellFormed.full later) worker),Bool.toNat_true]
    omega

/-- The last of the layers that are furthest behind misses a worker. It has enqueued all later
layers of the iteration, and all forward locks of the iteration were granted. -/
theorem exists_enqueue (pipe : Pipelined work chunkSize groups early c) (order : c.InOrder work)
    (several : 1 < work.numWorkersAllocated j) (some : 0 < (work.model j).length)
    (gathering : ∀ t < (work.model j).length, (groups j t).phase = .gathering 0)
    (room : ∀ t < (work.model j).length,
      (groups j t).arrived.length < work.numWorkersAllocated j)
    (turnsLeft : ∃ t < (work.model j).length, (groups j t).turn < work.nIter j) :
    ∃ r, r.job = j ∧ c.MayEnqueue work r ∧ c.Reaches work r := by
  obtain ⟨t,layer,least⟩ := exists_last_least (fun t => (groups j t).turn) some
  obtain ⟨w,worker,missing⟩ : ∃ w ∈ work.widsAllocated j, w ∉ (groups j t).arrived := by
    by_contra all
    push Not at all
    exact absurd ((work.widsDistinct j).subperm all).length_le (room t layer).not_ge
  have enqueued : c.enqueued ⟨w,j,t⟩ = (groups j t).turn := by
    rw [pipe.enqueued_eq layer worker,pipe.early_nil layer (gathering t layer)]
    simp [missing]
  have iter (u : Nat) (inside : u < (work.model j).length) :
      (c.tensor ⟨w,j,u⟩).iter = (groups j u).turn :=
    pipe.iter_of_gathering inside (gathering u inside) worker
  have next (u : Nat) (inside : u < (work.model j).length) (after : t < u) :
      c.enqueued ⟨w,j,u⟩ = c.enqueued ⟨w,j,t⟩ + 1 := by
    have most := (order.backward w j t u worker after.le inside).2
    have ahead := (least u inside).2 after
    have served := pipe.iter_le_enqueued inside worker
    rw [iter u inside] at served
    omega
  refine ⟨⟨w,j,t⟩,rfl,⟨⟨worker,layer⟩,several,?_,?_⟩,fun u inside => ⟨?_,next u inside⟩⟩
  · obtain ⟨u,inside,more⟩ := turnsLeft
    rw [enqueued]
    exact (least u inside).1.trans_lt more
  · rw [enqueued,iter t layer]
  · rw [enqueued]
    exact (least u inside).1.trans_eq (iter u inside).symm

theorem mayFinish (pipe : Pipelined work chunkSize groups early c) (order : c.InOrder work)
    (gathering : ∀ t < (work.model j).length, (groups j t).phase = .gathering 0)
    (last : ∀ t < (work.model j).length, work.nIter j ≤ (groups j t).turn)
    (worker : w ∈ work.widsAllocated j) (unfinished : c.finished w j = false) :
    c.MayFinish work w j := by
  refine ⟨worker,unfinished,fun t layer => ?_⟩
  have iter := pipe.iter_of_gathering layer (gathering t layer) worker
  have served := pipe.iter_le_enqueued layer worker
  have most : c.enqueued ⟨w,j,t⟩ ≤ work.nIter j := order.within _
  have ends := last t layer
  omega

/-- Nobody waits for the scheduler: some worker of an unfinished job enqueues or finishes. -/
theorem goes_on (pipe : Pipelined work chunkSize groups early c) (order : c.InOrder work)
    (several : 1 < work.numWorkersAllocated j)
    (gathering : ∀ t < (work.model j).length, (groups j t).phase = .gathering 0)
    (room : ∀ t < (work.model j).length,
      (groups j t).arrived.length < work.numWorkersAllocated j)
    (worker : w ∈ work.widsAllocated j) (unfinished : c.finished w j = false) :
    (∃ r, r.job = j ∧ c.MayEnqueue work r ∧ c.Reaches work r) ∨ c.MayFinish work w j := by
  by_cases turnsLeft : ∃ t < (work.model j).length, (groups j t).turn < work.nIter j
  · obtain ⟨t,layer,more⟩ := turnsLeft
    exact Or.inl (pipe.exists_enqueue order several (Nat.zero_lt_of_lt layer) gathering room
      ⟨t,layer,more⟩)
  · push Not at turnsLeft
    exact Or.inr (pipe.mayFinish order gathering turnsLeft worker unfinished)

end Pipelined
end CloudSim
