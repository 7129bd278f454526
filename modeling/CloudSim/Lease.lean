import CloudSim.Training

/-! The two locks of one tensor on one worker. `execute_job` takes `fp_locks[t]` before a forward
pass and the end of the tensor's allreduce gives it back; `allreduce` takes `allreduce_locks[t]`
twice, the second time after a packet has released it. -/
namespace CloudSim

/-- What `execute_job` has of `fp_locks[t]`: nothing, a request that waits, the lock, in its last
loop the lock and that of `allreduce`, then that of `allreduce` alone, or nothing for good. -/
inductive Hold where
  | none
  | waits
  | holds
  | settles
  | yields
  | quit
  deriving DecidableEq

/-- The hold on tensor `t` at a position; `granted` tells whether the request there was granted. -/
def Training.Position.hold (granted : Bool) (t : Nat) : Training.Position → Hold
  | forward _ u =>
    if t < u then .holds else if t = u then (if granted then .holds else .waits) else .none
  | computing _ u | backward _ u => if t ≤ u then .holds else .none
  | closing u =>
    if t < u then .quit else if t = u then (if granted then .holds else .waits) else .none
  | settling u => if t < u then .quit else if t = u then .settles else .none
  | leaving | gone => .quit

/-- The requests of `execute_job` that wait. -/
def Hold.queue (r : TensorRef) : Hold → List Waiter
  | waits => [.job r.machine r.job]
  | _ => []

/-- What a simulation has of one tensor: the last call of `allreduce` on it, whether that call was
granted a lock and has not resumed, and the two locks. -/
structure Share where
  pending : Bool
  called : Nat
  call : Suspension
  woken : Bool
  fp : Resource Waiter
  allreduce : Resource Waiter

/-- The states of a tensor. `extra` counts releases of `allreduce_locks[t]` by packets that no
call waited for. -/
inductive Lease (r : TensorRef) : Nat → Hold → Share → Prop where
  | rest : Lease r extra .none ⟨false,k,.ended,false,⟨1,[]⟩,⟨extra + 1,[]⟩⟩
  | quit : Lease r extra .quit ⟨false,k,.ended,false,⟨1,[]⟩,⟨extra + 1,[]⟩⟩
  | held : Lease r extra .holds ⟨false,k,.ended,false,⟨0,[]⟩,⟨extra + 1,[]⟩⟩
  | settles : Lease r extra .settles ⟨false,k,.ended,false,⟨0,[]⟩,⟨extra,[]⟩⟩
  | yields : Lease r extra .yields ⟨false,k,.ended,false,⟨1,[]⟩,⟨extra,[]⟩⟩
  | queued : hold = .none ∨ hold = .waits →
    Lease r extra hold ⟨true,k,.ended,false,⟨0,hold.queue r⟩,⟨extra + 1,[]⟩⟩
  | first : hold = .none ∨ hold = .waits →
    Lease r extra hold ⟨true,k + 1,.first,true,⟨0,hold.queue r⟩,⟨extra,[]⟩⟩
  | waiting : hold = .none ∨ hold = .waits →
    Lease r 0 hold ⟨true,k + 1,.second g,false,⟨0,hold.queue r⟩,⟨0,[.call r k]⟩⟩
  | woken : hold = .none ∨ hold = .waits →
    Lease r extra hold ⟨true,k + 1,.second g,true,⟨0,hold.queue r⟩,⟨extra,[]⟩⟩

namespace Lease
variable {r : TensorRef} {extra : Nat} {hold : Hold} {share : Share}

/-- No call is under way on what `execute_job` holds or has left. -/
theorem of_holds (lease : Lease r extra hold share) (own : hold ≠ .none) (given : hold ≠ .waits) :
    share.pending = false ∧ share.call = .ended ∧ share.woken = false := by
  cases lease with
  | queued open' | first open' | waiting open' | woken open' =>
    exact absurd open' (not_or.mpr ⟨own,given⟩)
  | _ => exact ⟨rfl,rfl,rfl⟩

theorem pending_of_call (lease : Lease r extra hold share) (busy : share.call ≠ .ended) :
    share.pending = true := by
  cases lease with
  | first | waiting | woken => rfl
  | _ => exact absurd rfl busy

theorem asleep (lease : Lease r extra hold share) (quiet : share.call = .ended) :
    share.woken = false := by
  cases lease with
  | first | waiting | woken => cases quiet
  | _ => rfl

theorem woken_of_first (lease : Lease r extra hold share) (first : share.call = .first) :
    share.woken = true := by
  cases lease with
  | first => rfl
  | _ => cases first

/-- What `execute_job` waits for is being reduced. -/
theorem pending_of_waits (lease : Lease r extra .waits share) : share.pending = true := by
  cases lease <;> rfl

/-- `fp_locks[t]` has at most one unit, the other lock one more than the extra releases. -/
theorem units (lease : Lease r extra hold share) :
    share.fp.available ≤ 1 ∧ share.allreduce.available ≤ extra + 1 := by
  cases lease <;> simp

/-- `execute_job` requests `fp_locks[t]`. -/
theorem request (lease : Lease r extra .none share) :
    let answer := share.fp.request (.job r.machine r.job)
    (answer.1 = [.job r.machine r.job] ∧ Lease r extra .holds { share with fp := answer.2 }) ∨
      (answer.1 = [] ∧ Lease r extra .waits { share with fp := answer.2 }) := by
  cases lease with
  | rest => exact Or.inl ⟨rfl,.held⟩
  | queued => exact Or.inr ⟨rfl,.queued (Or.inr rfl)⟩
  | first => exact Or.inr ⟨rfl,.first (Or.inr rfl)⟩
  | waiting => exact Or.inr ⟨rfl,.waiting (Or.inr rfl)⟩
  | woken => exact Or.inr ⟨rfl,.woken (Or.inr rfl)⟩

/-- What `execute_job` holds nobody else waits for or uses. -/
theorem holds_iff : Lease r extra .holds share ↔
    ∃ k, share = ⟨false,k,.ended,false,⟨0,[]⟩,⟨extra + 1,[]⟩⟩ := by
  constructor
  · intro lease
    cases lease with
    | held => exact ⟨_,rfl⟩
    | queued open' | first open' | waiting open' | woken open' =>
      rcases open' with same | same <;> cases same
  · rintro ⟨k,rfl⟩
    exact .held

theorem settles_iff : Lease r extra .settles share ↔
    ∃ k, share = ⟨false,k,.ended,false,⟨0,[]⟩,⟨extra,[]⟩⟩ := by
  constructor
  · intro lease
    cases lease with
    | settles => exact ⟨_,rfl⟩
    | queued open' | first open' | waiting open' | woken open' =>
      rcases open' with same | same <;> cases same
  · rintro ⟨k,rfl⟩
    exact .settles

theorem give (lease : Lease r extra .holds share) :
    share.fp.release.1 = [] ∧ Lease r extra .none { share with fp := share.fp.release.2 } := by
  obtain ⟨k,rfl⟩ := holds_iff.mp lease
  exact ⟨rfl,.rest⟩

theorem enqueue (lease : Lease r extra .holds share) :
    Lease r extra .none { share with pending := true } := by
  obtain ⟨k,rfl⟩ := holds_iff.mp lease
  exact .queued (Or.inl rfl)

/-- `allreduce` is called on an enqueued tensor that no call is under way on. -/
theorem call (lease : Lease r extra hold share) (pending : share.pending = true)
    (quiet : share.call = .ended) :
    let answer := share.allreduce.request (.call r share.called)
    answer.1 = [.call r share.called] ∧ Lease r extra hold
      { share with
        called := share.called + 1, call := .first, woken := true, allreduce := answer.2 } := by
  cases lease with
  | queued open' =>
    simp only [Resource.request_free]
    exact ⟨trivial,.first open'⟩
  | first | waiting | woken => cases quiet
  | _ => cases pending

theorem launch (lease : Lease r extra hold share) (first : share.call = .first) (g : Nat) :
    ∃ k, share.called = k + 1 ∧
      let answer := share.allreduce.request (.call r k)
      answer.1 = (if extra = 0 then [] else [.call r k]) ∧ Lease r (extra - 1) hold
        { share with call := .second g, woken := decide (extra ≠ 0), allreduce := answer.2 } := by
  cases lease with
  | first open' =>
    refine ⟨_,rfl,?_⟩
    cases extra with
    | zero => exact ⟨rfl,.waiting open'⟩
    | succ extra =>
      simp only [Resource.request_free]
      exact ⟨rfl,.woken open'⟩
  | _ => cases first

/-- A packet releases the lock of `allreduce`: a call that waits for it goes on. -/
theorem packet (lease : Lease r extra hold share) :
    let answer := share.allreduce.release
    (∃ k g, share.called = k + 1 ∧ share.call = .second g ∧ share.woken = false ∧
      answer.1 = [.call r k] ∧
      Lease r extra hold { share with woken := true, allreduce := answer.2 }) ∨
    (answer.1 = [] ∧ (∀ g, share.call = .second g → share.woken = true) ∧
      Lease r (extra + 1) hold { share with allreduce := answer.2 }) := by
  cases lease with
  | rest => exact Or.inr ⟨rfl,nofun,.rest⟩
  | quit => exact Or.inr ⟨rfl,nofun,.quit⟩
  | held => exact Or.inr ⟨rfl,nofun,.held⟩
  | settles => exact Or.inr ⟨rfl,nofun,.settles⟩
  | yields => exact Or.inr ⟨rfl,nofun,.yields⟩
  | queued open' => exact Or.inr ⟨rfl,nofun,.queued open'⟩
  | first open' => exact Or.inr ⟨rfl,nofun,.first open'⟩
  | waiting open' => exact Or.inl ⟨_,_,rfl,rfl,rfl,rfl,.woken open'⟩
  | woken open' => exact Or.inr ⟨rfl,fun _ _ => rfl,.woken open'⟩

theorem finish (lease : Lease r extra hold share) (second : share.call = .second g)
    (woken : share.woken = true) :
    share.allreduce.release.1 = [] ∧ Lease r extra hold
      { share with call := .ended, woken := false, allreduce := share.allreduce.release.2 } := by
  cases lease with
  | woken open' => exact ⟨rfl,.queued open'⟩
  | waiting => cases woken
  | _ => cases second

theorem reduced (lease : Lease r extra hold share) (pending : share.pending = true)
    (quiet : share.call = .ended) :
    (hold = .none ∧ share.fp.release.1 = [] ∧
      Lease r extra .none { share with pending := false, fp := share.fp.release.2 }) ∨
    (hold = .waits ∧ share.fp.release.1 = [.job r.machine r.job] ∧
      Lease r extra .holds { share with pending := false, fp := share.fp.release.2 }) := by
  cases lease with
  | queued open' =>
    rcases open' with rfl | rfl
    · exact Or.inl ⟨rfl,rfl,.rest⟩
    · exact Or.inr ⟨rfl,rfl,.held⟩
  | first | waiting | woken => cases quiet
  | _ => cases pending

theorem settle (lease : Lease r extra .holds share) :
    let answer := share.allreduce.request (.job r.machine r.job)
    answer.1 = [.job r.machine r.job] ∧
      Lease r extra .settles { share with allreduce := answer.2 } := by
  obtain ⟨k,rfl⟩ := holds_iff.mp lease
  simp only [Resource.request_free]
  exact ⟨trivial,.settles⟩

theorem leave (lease : Lease r extra .settles share) :
    share.fp.release.1 = [] ∧ Lease r extra .yields { share with fp := share.fp.release.2 } := by
  obtain ⟨k,rfl⟩ := settles_iff.mp lease
  exact ⟨rfl,.yields⟩

theorem abandon (lease : Lease r extra .yields share) : share.allreduce.release.1 = [] ∧
    Lease r extra .quit { share with allreduce := share.allreduce.release.2 } := by
  cases lease with
  | yields => exact ⟨rfl,.quit⟩
  | queued open' | first open' | waiting open' | woken open' =>
    rcases open' with same | same <;> cases same

end Lease
end CloudSim
