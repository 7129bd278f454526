import CloudSim.Deployment
import CloudSim.Resource
import CloudSim.Runs

/-! `Worker::execute_job` and `Worker::allreduce` as coroutines on the workers of a network. An
event that a lock triggers resumes its coroutine in some later step, timeouts end at any time, and
packets arrive in any order. -/
namespace CloudSim

/-- Jobs that run for a number of iterations. With `scheduled` they hand their tensors to a
collective scheduler, without it `cs` is `nullptr`. -/
structure Plan extends Deployment where
  nIter : Nat → Nat
  scheduled : Bool

/-- Where `execute_job` is suspended: in the request of `fp_locks[t]` before a forward pass, in
the forward and the backward pass of `t`, in the two requests of the last loop, and in the timeout
before the tear-down. -/
inductive Training.Position where
  | forward (iter t : Nat)
  | computing (iter t : Nat)
  | backward (iter t : Nat)
  | closing (t : Nat)
  | settling (t : Nat)
  | leaving
  | gone
  deriving DecidableEq, Repr

/-- Where a call of `allreduce` is suspended: in the first or the second request of its lock.
`gradSize` is the local `grad_size`. -/
inductive Suspension where
  | first
  | second (gradSize : Nat)
  | ended
  deriving DecidableEq, Repr

/-- A coroutine: `execute_job` of worker `w` for job `j`, or call `k` of `allreduce` on a tensor. -/
inductive Waiter where
  | job (w j : Nat)
  | call (r : TensorRef) (k : Nat)
  deriving DecidableEq, Repr

inductive LockMap where
  | fpLocks
  | allreduceLocks
  deriving DecidableEq

structure Lock where
  map : LockMap
  machine : Nat
  key : Nat
  deriving DecidableEq

def TensorRef.fpLock (cfg : Config) (r : TensorRef) : Lock := ⟨.fpLocks,r.machine,r.key cfg⟩

def TensorRef.allreduceLock (cfg : Config) (r : TensorRef) : Lock :=
  ⟨.allreduceLocks,r.machine,r.key cfg⟩

/-- What triggered an event: the request itself, a release by another coroutine, or the release
in `receivePacket`. -/
inductive Cause where
  | request
  | coroutine (waiter : Waiter)
  | packet (fl : Flight)
  deriving DecidableEq

/-- `granted` lists the coroutines whose event has triggered and that have not resumed. A tensor
is `pending` from its enqueue, or its call of `allreduce` without a scheduler, until it is reduced
completely. `called` counts the calls of `allreduce`; `causes` is history. -/
structure Training where
  fabric : Fabric
  jobs : List Nat := []
  locks : Lock → Resource Waiter := fun _ => {}
  granted : List Waiter := []
  position : Nat × Nat → Option Training.Position := fun _ => none
  pending : TensorRef → Bool := fun _ => false
  called : TensorRef → Nat := fun _ => 0
  stage : TensorRef → Nat → Suspension := fun _ _ => .ended
  causes : Waiter → Cause := fun _ => .request

namespace Training

/-- A lock has answered a request or a release: it triggers events and changes. -/
def answer (s : Training) (lock : Lock) (result : List Waiter × Resource Waiter) (cause : Cause) :
    Training :=
  { s with
    locks := Function.update s.locks lock result.2
    granted := s.granted ++ result.1
    causes := fun waiter => if waiter ∈ result.1 then cause else s.causes waiter }

def request (s : Training) (lock : Lock) (waiter : Waiter) : Training :=
  s.answer lock ((s.locks lock).request waiter) .request

def release (s : Training) (lock : Lock) (cause : Cause) : Training :=
  s.answer lock (s.locks lock).release cause

def goto (s : Training) (w j : Nat) (p : Position) : Training :=
  { s with position := Function.update s.position (w,j) (some p) }

def setStage (s : Training) (r : TensorRef) (k : Nat) (stage : Suspension) : Training :=
  { s with stage := Function.update s.stage r (Function.update (s.stage r) k stage) }

section executeJob
variable (d : Plan) (s : Training) (w j : Nat)

/-- The last loop of `execute_job` from tensor `t` on. -/
def close (t : Nat) : Training :=
  if t < d.modelSize j then
    (s.request ((⟨w,j,t⟩ : TensorRef).fpLock d.cfg) (.job w j)).goto w j (.closing t)
  else s.goto w j .leaving

/-- The head of the iteration loop. Without tensors its body does nothing. -/
def iterate (iter : Nat) : Training :=
  if iter < d.nIter j ∧ 0 < d.modelSize j then
    (s.request ((⟨w,j,0⟩ : TensorRef).fpLock d.cfg) (.job w j)).goto w j (.forward iter 0)
  else s.close d w j 0

/-- `allreduce` up to its first suspension. -/
def callAllreduce (r : TensorRef) : Training :=
  { s.setStage r (s.called r) .first with
    called := Function.update s.called r (s.called r + 1) }.request (r.allreduceLock d.cfg)
      (.call r (s.called r))

/-- What follows the backward pass of a tensor: a scheduler starts the calls later. -/
def reduce (t : Nat) : Training :=
  let r : TensorRef := ⟨w,j,t⟩
  if 1 < (d.tree j).workers.length then
    let s := { s with pending := Function.update s.pending r true }
    if d.scheduled then s else s.callAllreduce d r
  else s.release (r.fpLock d.cfg) (.coroutine (.job w j))

def passForward (iter t : Nat) : Training :=
  if t + 1 < d.modelSize j then
    (s.request ((⟨w,j,t + 1⟩ : TensorRef).fpLock d.cfg) (.job w j)).goto w j (.forward iter (t + 1))
  else s.goto w j (.backward iter t)

def passBackward (iter t : Nat) : Training :=
  let s := s.reduce d w j t
  match t with
  | 0 => s.iterate d w j (iter + 1)
  | t + 1 => s.goto w j (.backward iter t)

def settle (t : Nat) : Training :=
  let r : TensorRef := ⟨w,j,t⟩
  ((s.release (r.fpLock d.cfg) (.coroutine (.job w j))).release (r.allreduceLock d.cfg)
    (.coroutine (.job w j))).close d w j (t + 1)

def resumeJob : Option Training :=
  match s.position (w,j) with
  | some (.forward iter t) => some (s.goto w j (.computing iter t))
  | some (.closing t) =>
    some ((s.request ((⟨w,j,t⟩ : TensorRef).allreduceLock d.cfg) (.job w j)).goto w j (.settling t))
  | some (.settling t) => some (s.settle d w j t)
  | _ => none

/-- The tensors of the worker are deleted. -/
def tearDown : Training := s.goto w j .gone

def elapse : Option Training :=
  match s.position (w,j) with
  | some (.computing iter t) => some (s.passForward d w j iter t)
  | some (.backward iter t) => some (s.passBackward d w j iter t)
  | some .leaving => some (s.tearDown w j)
  | _ => none

end executeJob

section allreduce
variable (d : Plan) (s : Training) (r : TensorRef) (k : Nat)

def launch : Training :=
  let gradSize := Worker.allreduceSize (if d.scheduled then d.chunkSize else 0)
    (s.fabric.objs.tensor r)
  ({ s with fabric := s.fabric.launch d.cfg r gradSize }.setStage r k (.second gradSize)).request
    (r.allreduceLock d.cfg) (.call r k)

def finish (gradSize : Nat) : Training :=
  let t := s.fabric.objs.tensor r
  let s := ({ s with fabric := s.fabric.finish d.cfg r gradSize k }.setStage r k .ended).release
    (r.allreduceLock d.cfg) (.coroutine (.call r k))
  if t.size ≤ u64 (t.allreducedSize + gradSize) then
    { s with pending := Function.update s.pending r false }.release (r.fpLock d.cfg)
      (.coroutine (.call r k))
  else s

def resumeCall : Option Training :=
  match s.stage r k with
  | .first => some (s.launch d r k)
  | .second gradSize => some (s.finish d r k gradSize)
  | .ended => none

def lastCall : Suspension :=
  match s.called r with
  | 0 => .ended
  | k + 1 => s.stage r k

end allreduce

/-- The tensor has not been deleted. -/
def Alive (s : Training) (r : TensorRef) : Prop := s.position (r.machine,r.job) ≠ some .gone

instance (s : Training) (r : TensorRef) : Decidable (s.Alive r) :=
  inferInstanceAs (Decidable (_ ≠ _))

def deliver (d : Plan) (s : Training) (fl : Flight) : Training :=
  let next := { s with fabric := s.fabric.deliver d.cfg fl }
  match fl.hop.dest with
  | .tor _ | .core => next
  | .worker w =>
    if s.fabric.releases d.cfg fl then
      next.release ((fl.layer.ref w).allreduceLock d.cfg) (.packet fl)
    else next

def place (d : Plan) (s : Training) (j : Nat) : Training :=
  let tree := d.tree j
  let net := d.topo.setSwitchNumUpdates j tree.workers tree.tors s.fabric.net
  { s with fabric := { s.fabric with net := net }, jobs := s.jobs ++ [j] }

inductive Label where
  | place (j : Nat)
  | execute (w j : Nat)
  | elapse (w j : Nat)
  | resume (waiter : Waiter)
  | call (r : TensorRef)
  | deliver (fl : Flight)

/-- A scheduler calls `allreduce` for what is enqueued, one call at a time for a tensor. No packet
with a deleted tensor is handled: what follows is undefined. -/
def step (d : Plan) : Label → Training → Option Training
  | .place j,s => if j ∈ s.jobs then none else some (s.place d j)
  | .execute w j,s =>
    if j ∈ s.jobs ∧ w ∈ (d.tree j).workers ∧ s.position (w,j) = none then
      some (s.iterate d w j 0)
    else none
  | .elapse w j,s => s.elapse d w j
  | .resume waiter,s =>
    if waiter ∈ s.granted then
      let s := { s with granted := s.granted.erase waiter }
      match waiter with
      | .job w j => s.resumeJob d w j
      | .call r k => s.resumeCall d r k
    else none
  | .call r,s =>
    if d.scheduled ∧ s.pending r ∧ s.lastCall r = .ended then some (s.callAllreduce d r) else none
  | .deliver fl,s =>
    if fl ∈ s.fabric.inflight ∧ s.Alive fl.hop.packet.tensor then some (s.deliver d fl) else none

def initial (d : Plan) : Training where
  fabric := { net := d.topo.initNetwork, objs := d.objects }

inductive Stepped (d : Plan) (s : Training) : Label → Training → Prop where
  | place : j ∉ s.jobs → Stepped d s (.place j) (s.place d j)
  | execute : j ∈ s.jobs → w ∈ (d.tree j).workers → s.position (w,j) = none →
    Stepped d s (.execute w j) (s.iterate d w j 0)
  | elapse : s.elapse d w j = some s' → Stepped d s (.elapse w j) s'
  | job : .job w j ∈ s.granted →
    { s with granted := s.granted.erase (.job w j) }.resumeJob d w j = some s' →
    Stepped d s (.resume (.job w j)) s'
  | launch : .call r k ∈ s.granted → s.stage r k = .first →
    Stepped d s (.resume (.call r k))
      ({ s with granted := s.granted.erase (.call r k) }.launch d r k)
  | finish : .call r k ∈ s.granted → s.stage r k = .second g →
    Stepped d s (.resume (.call r k))
      ({ s with granted := s.granted.erase (.call r k) }.finish d r k g)
  | call : d.scheduled = true → s.pending r = true → s.lastCall r = .ended →
    Stepped d s (.call r) (s.callAllreduce d r)
  | deliver : fl ∈ s.fabric.inflight → s.Alive fl.hop.packet.tensor →
    Stepped d s (.deliver fl) (s.deliver d fl)

theorem stepped {d : Plan} {s s' : Training} {label : Label} (taken : step d label s = some s') :
    Stepped d s label s' := by
  cases label with
  | place j =>
    simp only [step] at taken
    split at taken <;> cases taken
    exact .place ‹_›
  | execute w j =>
    simp only [step] at taken
    split at taken <;> cases taken
    rename_i may
    exact .execute may.1 may.2.1 may.2.2
  | elapse w j => exact .elapse taken
  | resume waiter =>
    simp only [step] at taken
    split at taken
    · rename_i granted
      cases waiter with
      | job w j => exact .job granted taken
      | call r k =>
        dsimp only [resumeCall] at taken
        split at taken
        · rename_i first
          cases taken
          exact .launch granted first
        · rename_i second
          cases taken
          exact .finish granted second
        · cases taken
    · cases taken
  | call r =>
    simp only [step] at taken
    split at taken <;> cases taken
    rename_i may
    exact .call may.1 may.2.1 may.2.2
  | deliver fl =>
    simp only [step] at taken
    split at taken <;> cases taken
    rename_i may
    exact .deliver may.1 may.2

/-- `execute_job` of `w` for `j` has gone on to `p`. The network and the calls are as before. -/
structure Onward (s s' : Training) (w j : Nat) (p : Position) : Prop where
  fabric : s'.fabric = s.fabric
  jobs : s'.jobs = s.jobs
  called : s'.called = s.called
  stage : s'.stage = s.stage
  position : s'.position = Function.update s.position (w,j) (some p)

section onward
variable (d : Plan) (s : Training) (w j t iter : Nat)

theorem close_onward : ∃ p, Onward s (s.close d w j t) w j p ∧ (p = .closing t ∨ p = .leaving) := by
  unfold close
  split
  · exact ⟨_,⟨rfl,rfl,rfl,rfl,rfl⟩,Or.inl rfl⟩
  · exact ⟨_,⟨rfl,rfl,rfl,rfl,rfl⟩,Or.inr rfl⟩

theorem iterate_onward : ∃ p, Onward s (s.iterate d w j iter) w j p ∧
    (p = .forward iter 0 ∧ iter < d.nIter j ∨
      (d.modelSize j = 0 ∨ d.nIter j ≤ iter) ∧ (p = .closing 0 ∨ p = .leaving)) := by
  unfold iterate
  split
  · rename_i more
    exact ⟨_,⟨rfl,rfl,rfl,rfl,rfl⟩,Or.inl ⟨rfl,more.1⟩⟩
  · rename_i last
    obtain ⟨p,onward,ends⟩ := s.close_onward d w j 0
    exact ⟨p,onward,Or.inr ⟨by omega,ends⟩⟩

theorem passForward_onward : ∃ p, Onward s (s.passForward d w j iter t) w j p ∧
    (p = .forward iter (t + 1) ∨ p = .backward iter t ∧ d.modelSize j ≤ t + 1) := by
  unfold passForward
  split
  · exact ⟨_,⟨rfl,rfl,rfl,rfl,rfl⟩,Or.inl rfl⟩
  · rename_i last
    exact ⟨_,⟨rfl,rfl,rfl,rfl,rfl⟩,Or.inr ⟨rfl,Nat.le_of_not_lt last⟩⟩

theorem settle_onward : ∃ p, Onward s (s.settle d w j t) w j p ∧
    (p = .closing (t + 1) ∨ p = .leaving) := by
  obtain ⟨p,onward,ends⟩ := close_onward d ((s.release _ _).release _ _) w j (t + 1)
  exact ⟨p,⟨onward.fabric,onward.jobs,onward.called,onward.stage,onward.position⟩,ends⟩

theorem reduce_fields : (s.reduce d w j t).fabric = s.fabric ∧ (s.reduce d w j t).jobs = s.jobs ∧
    (s.reduce d w j t).position = s.position := by
  unfold reduce
  split <;> [split; skip] <;> exact ⟨rfl,rfl,rfl⟩

end onward

/-- A timeout of `execute_job` moves no packet, and only the last one deletes the tensors. -/
theorem elapse_frame {d : Plan} {s s' : Training} (taken : s.elapse d w j = some s') :
    s'.fabric = s.fabric ∧ ∃ p, s'.position = Function.update s.position (w,j) (some p) ∧
      (p = .gone → s.position (w,j) = some .leaving) := by
  unfold elapse at taken
  split at taken
  · cases taken
    obtain ⟨p,onward,next⟩ := s.passForward_onward d w j _ _
    exact ⟨onward.fabric,p,onward.position,by rcases next with rfl | ⟨rfl,_⟩ <;> exact nofun⟩
  · rename_i iter t position
    cases taken
    obtain ⟨fabric,_,same⟩ := s.reduce_fields d w j t
    cases t with
    | zero =>
      obtain ⟨p,onward,next⟩ := (s.reduce d w j 0).iterate_onward d w j (iter + 1)
      refine ⟨onward.fabric.trans fabric,p,onward.position.trans (by rw [same]),?_⟩
      rcases next with ⟨rfl,_⟩ | ⟨_,rfl | rfl⟩ <;> exact nofun
    | succ t => exact ⟨fabric,_,congrArg (Function.update · _ _) same,nofun⟩
  · rename_i position
    cases taken
    exact ⟨rfl,.gone,rfl,fun _ => position⟩
  · cases taken

theorem resumeJob_frame {d : Plan} {s s' : Training} (taken : s.resumeJob d w j = some s') :
    ∃ p, Onward s s' w j p ∧ p ≠ .gone := by
  unfold resumeJob at taken
  split at taken
  · cases taken
    exact ⟨_,⟨rfl,rfl,rfl,rfl,rfl⟩,nofun⟩
  · cases taken
    exact ⟨_,⟨rfl,rfl,rfl,rfl,rfl⟩,nofun⟩
  · cases taken
    obtain ⟨p,onward,ends⟩ := s.settle_onward d w j _
    exact ⟨p,onward,by rcases ends with rfl | rfl <;> exact nofun⟩
  · cases taken

section fields
variable (d : Plan) (s : Training)

/-- The end of a call moves no `execute_job`. -/
theorem finish_fields (r : TensorRef) (k gradSize : Nat) :
    let s' := s.finish d r k gradSize
    s'.fabric = s.fabric.finish d.cfg r gradSize k ∧ s'.jobs = s.jobs ∧
      s'.position = s.position ∧ s'.called = s.called ∧
      s'.stage = (s.setStage r k .ended).stage := by
  dsimp only [finish]
  split <;> exact ⟨rfl,rfl,rfl,rfl,rfl⟩

theorem deliver_fields (fl : Flight) :
    let s' := s.deliver d fl
    s'.fabric = s.fabric.deliver d.cfg fl ∧ s'.jobs = s.jobs ∧ s'.position = s.position ∧
      s'.called = s.called ∧ s'.stage = s.stage := by
  dsimp only [deliver]
  split
  · exact ⟨rfl,rfl,rfl,rfl,rfl⟩
  · exact ⟨rfl,rfl,rfl,rfl,rfl⟩
  · split <;> exact ⟨rfl,rfl,rfl,rfl,rfl⟩

end fields

end Training
end CloudSim
