import CloudSim.Deployment
import CloudSim.FlowRound
import CloudSim.Runs

/-! Rounds of allreduces that a collective scheduler starts on all workers of a job together.
Any number of jobs share the switches and workers of a two-level network. -/
namespace CloudSim

/-- The history of a layer dropped. -/
def Fabric.forget (f : Fabric) (l : Layer) : Fabric :=
  { f with
    begun := fun r => if r.layer = l then 0 else f.begun r
    done := fun r => if r.layer = l then 0 else f.done r
    sent := f.sent.filter fun fl => fl.layer ≠ l
    got := f.got.filter fun fl => fl.layer ≠ l
    held := f.held.filter fun fl => fl.layer ≠ l
    lost := f.lost.filter fun fl => fl.layer ≠ l
    cleaned := fun x => Function.update (f.cleaned x) l 0 }

/-- Where a worker stands with a layer: it has nothing under way, it has enqueued the tensor, its
`allreduce` was called, has sent its first packets, or has been woken by the last result. The
number is the local `grad_size` of the call. -/
inductive CallStage where
  | idle
  | enqueued
  | called
  | sending (gradSize : Nat)
  | released (gradSize : Nat)
  deriving DecidableEq

def CallStage.rests : CallStage → Bool
  | idle | enqueued => true
  | called | sending _ | released _ => false

/-- `opened` lists the layers whose round has started and not ended. -/
structure Rounds where
  fabric : Fabric
  jobs : List Nat := []
  stage : TensorRef → CallStage := fun _ => .idle
  opened : List Layer := []

namespace Rounds

inductive Label where
  | place (job : Nat)
  | enqueue (r : TensorRef)
  | start (l : Layer)
  | launch (r : TensorRef)
  | deliver (fl : Flight)
  | finish (r : TensorRef)

/-- The tensor exists: its job is placed and its machine is one of the workers. -/
def allocated (d : Deployment) (s : Rounds) (r : TensorRef) : Prop :=
  r.job ∈ s.jobs ∧ r.tensorId < d.modelSize r.job ∧ r.machine ∈ (d.tree r.job).workers

instance (d : Deployment) (s : Rounds) (r : TensorRef) : Decidable (s.allocated d r) :=
  inferInstanceAs (Decidable (_ ∧ _))

/-- A scheduler starts a round when all workers have enqueued the tensor, or for the next chunk
when the calls of the round before have ended, for which it waits in `all_of`. -/
def ready (d : Deployment) (s : Rounds) (l : Layer) : Prop :=
  (∀ w ∈ (d.tree l.1).workers, s.stage (l.ref w) = .enqueued) ∨
    ∀ w ∈ (d.tree l.1).workers, s.stage (l.ref w) = .idle ∧
      0 < (s.fabric.objs.tensor (l.ref w)).allreducedSize

instance (d : Deployment) (s : Rounds) (l : Layer) : Decidable (s.ready d l) :=
  inferInstanceAs (Decidable (_ ∨ _))

/-- The release of `allreduce_locks` by `receivePacket` wakes the call that waits for it. -/
def woken (d : Deployment) (s : Rounds) (fl : Flight) : TensorRef → CallStage :=
  match fl.hop.dest with
  | .tor _ | .core => s.stage
  | .worker w =>
    match s.stage (fl.layer.ref w),s.fabric.releases d.cfg fl with
    | .sending gradSize,true => Function.update s.stage (fl.layer.ref w) (.released gradSize)
    | _,_ => s.stage

def finish (d : Deployment) (s : Rounds) (r : TensorRef) (gradSize : Nat) : Rounds :=
  let fabric := s.fabric.finish d.cfg r gradSize 0
  let stage := Function.update s.stage r .idle
  if ∀ w ∈ (d.tree r.job).workers, (stage (r.layer.ref w)).rests then
    { s with fabric := fabric.forget r.layer, stage := stage, opened := s.opened.erase r.layer }
  else { s with fabric := fabric, stage := stage }

def step (d : Deployment) : Label → Rounds → Option Rounds
  | .place j,s =>
    let tree := d.tree j
    let net := d.topo.setSwitchNumUpdates j tree.workers tree.tors s.fabric.net
    if j ∈ s.jobs then none
    else some { s with fabric := { s.fabric with net := net }, jobs := s.jobs ++ [j] }
  -- the worker has passed the forward pass, hence `fp_locks` since the tensor was reduced
  | .enqueue r,s =>
    if s.allocated d r ∧ 2 ≤ (d.tree r.job).workers.length ∧ s.stage r = .idle ∧
        (s.fabric.objs.tensor r).allreducedSize = 0 then
      some { s with stage := Function.update s.stage r .enqueued }
    else none
  | .start l,s =>
    if l.1 ∈ s.jobs ∧ s.ready d l then
      some
        { s with
          stage := fun r => if r.layer = l ∧ r.machine ∈ (d.tree l.1).workers then .called
            else s.stage r
          opened := s.opened ++ [l] }
    else none
  | .launch r,s =>
    if s.stage r = .called then
      let gradSize := Worker.allreduceSize d.chunkSize (s.fabric.objs.tensor r)
      some
        { s with
          fabric := s.fabric.launch d.cfg r gradSize
          stage := Function.update s.stage r (.sending gradSize) }
    else none
  | .deliver fl,s =>
    if fl ∈ s.fabric.inflight then
      some { s with fabric := s.fabric.deliver d.cfg fl, stage := s.woken d fl }
    else none
  | .finish r,s =>
    match s.stage r with
    | .released gradSize => some (s.finish d r gradSize)
    | _ => none

def initial (d : Deployment) : Rounds where
  fabric := { net := d.topo.initNetwork, objs := d.objects }

/-- A round starts only while no other tensor whose key agrees in the low 32 bits has a round,
and only with a gradient whose offsets do not wrap around. -/
def apart (d : Deployment) : Label → Rounds → Prop
  | .start l,s => (∀ m ∈ s.opened, m.cut d.cfg = l.cut d.cfg → m = l) ∧
      ∀ w ∈ (d.tree l.1).workers,
        d.cfg.NoWrap (Worker.allreduceSize d.chunkSize (s.fabric.objs.tensor (l.ref w)))
  | _,_ => True

instance (d : Deployment) (label : Label) (s : Rounds) : Decidable (apart d label s) :=
  match label with
  | .start _ => inferInstanceAs (Decidable (_ ∧ _))
  | .place _ | .enqueue _ | .launch _ | .deliver _ | .finish _ => isTrue trivial

/-- The round of a layer can restart at version 0: no switch has an entry for the tensor and
none of its packets is under way. -/
structure Clean (d : Deployment) (s : Rounds) (l : Layer) : Prop where
  counts : ∀ x, (∀ w, x ≠ .worker w) →
    (s.fabric.net.switch x).countForTensorKey (l.cut d.cfg) = none
  seen : ∀ x, (∀ w, x ≠ .worker w) →
    (s.fabric.net.switch x).seenForTensorKey (l.cut d.cfg) = none
  landed : ∀ fl ∈ s.fabric.inflight, fl.layer ≠ l

/-- What holds in every reachable state. -/
structure StartsClean (d : Deployment) (s : Rounds) : Prop where
  /-- The calls of a round have been made and none has sent its first packet. -/
  clean : ∀ l, (∀ w ∈ (d.tree l.1).workers, s.stage (l.ref w) = .called) → Clean d s l
  noShadow : s.fabric.shadowed = []

end Rounds
end CloudSim
