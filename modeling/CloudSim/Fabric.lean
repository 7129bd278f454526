import CloudSim.Network

/-! The network with the packets under way in it. Any packet may be delivered next; the
routes keep no order that the protocol relies on. -/
namespace CloudSim

/-- A layer of a job. The workers of the job allocate one tensor each for it. -/
abbrev Layer := Nat × Nat

namespace Layer

def ref (l : Layer) (w : Nat) : TensorRef := ⟨w,l.1,l.2⟩

theorem ref_inj {l m : Layer} (same : m.ref v = l.ref w) : m = l ∧ v = w := by
  obtain ⟨machine,job,layer⟩ := TensorRef.mk.inj same
  exact ⟨Prod.ext job layer,machine⟩

/-- The key under which the maps of switches and workers hold the layer. -/
def cut (cfg : Config) (l : Layer) : Nat := u32 (cfg.getKey l.1 l.2)

end Layer

def TensorRef.layer (r : TensorRef) : Layer := (r.job,r.tensorId)

/-- A packet under way. `turn` is history: which allreduce of its tensor it belongs to. -/
structure Flight where
  hop : Hop
  turn : Nat
  deriving DecidableEq, Repr

def Flight.layer (fl : Flight) : Layer := fl.hop.packet.tensor.layer

namespace Network

def switch (net : Network) : Node → Switch
  | .tor t => net.tor t
  | .core | .worker _ => net.core

def setSwitch (net : Network) (x : Node) (sw : Switch) : Network :=
  match x with
  | .tor t => net.setTor t sw
  | .core => { net with core := sw }
  | .worker _ => net

section setSwitch
variable (net : Network) (x : Node) (sw : Switch)

theorem switch_setSwitch_self (station : ∀ w, x ≠ .worker w) :
    (net.setSwitch x sw).switch x = sw := by
  cases x with
  | tor t => exact setTor_same net t sw
  | core => rfl
  | worker w => exact absurd rfl (station w)

theorem switch_setSwitch_other (other : y ≠ x) (station : ∀ w, y ≠ .worker w) :
    (net.setSwitch x sw).switch y = net.switch y := by
  cases x with
  | tor t =>
    cases y with
    | tor s => exact setTor_other net sw fun same => other (congrArg Node.tor same)
    | core => rfl
    | worker w => exact absurd rfl (station w)
  | core =>
    cases y with
    | tor s => rfl
    | core => exact absurd rfl other
    | worker w => exact absurd rfl (station w)
  | worker w => rfl

@[simp] theorem setSwitch_worker : (net.setSwitch x sw).worker = net.worker := by
  cases x <;> rfl

variable (same : sw.config = (net.switch x).config)
include same

theorem setSwitch_tor_config (t : Nat) :
    ((net.setSwitch x sw).tor t).config = (net.tor t).config := by
  cases x with
  | tor s =>
    rcases eq_or_ne t s with rfl | other
    · exact (congrArg Switch.config (setTor_same net t sw)).trans same
    · exact congrArg Switch.config (setTor_other net sw other)
  | core => rfl
  | worker w => rfl

theorem setSwitch_core_config : (net.setSwitch x sw).core.config = net.core.config := by
  cases x with
  | tor t => rfl
  | core => exact same
  | worker w => rfl

end setSwitch
end Network

/-- From `begun` on the fields are history: the allreduces that each worker has begun and
has received completely, the packets that workers have sent and received, the packets that
met the `assert(false)` branch, the contributions recorded in the switches, those recorded
for a later allreduce than the one cleaned up, and the clean-ups of each switch. -/
structure Fabric where
  net : Network
  objs : Objects
  inflight : List Flight := []
  begun : TensorRef → Nat := fun _ => 0
  done : TensorRef → Nat := fun _ => 0
  sent : List Flight := []
  got : List Flight := []
  shadowed : List Flight := []
  held : List Flight := []
  lost : List Flight := []
  cleaned : Node → Layer → Nat := fun _ _ => 0

namespace Fabric

def fly (turn : Nat) (hops : List Hop) : List Flight := hops.map fun hop => ⟨hop,turn⟩

def setTensor (f : Fabric) (r : TensorRef) (t : Tensor) : Fabric :=
  { f with objs := { f.objs with tensor := Function.update f.objs.tensor r t } }

/-- The first half of `allreduce`, from the first grant of its lock to the second request. -/
def launch (cfg : Config) (f : Fabric) (r : TensorRef) (gradSize : Nat) : Fabric :=
  let f := f.setTensor r
    { f.objs.tensor r with numPktsExpected := Worker.pktsExpected cfg gradSize }
  let flights := fly (f.begun r)
    ((f.net.worker r.machine).initialPackets cfg f.objs gradSize r)
  { f with
    inflight := f.inflight ++ flights
    sent := f.sent ++ flights
    begun := Function.update f.begun r (f.begun r + 1) }

/-- `Switch::receivePacket` at the end of the hop. -/
def atSwitch (cfg : Config) (f : Fabric) (fl : Flight) : Fabric :=
  let x := fl.hop.dest
  let result := (f.net.switch x).receivePacket cfg fl.hop.packet
  { f with
    net := f.net.setSwitch x result.switch
    inflight := f.inflight.erase fl ++ fly fl.turn result.sent
    shadowed := if result.shadow then f.shadowed ++ [fl] else f.shadowed
    held := if fl.hop.packet.upward && !result.shadow then f.held ++ [fl] else f.held }

/-- `Worker::receivePacket` at the end of the hop, before it releases the lock. -/
def atWorker (cfg : Config) (f : Fabric) (fl : Flight) (w : Nat) : Fabric :=
  let result := (f.net.worker w).receivePacket cfg f.objs fl.hop.packet
  let r := fl.layer.ref w
  { f with
    net := f.net.setWorker w result.worker
    inflight := f.inflight.erase fl ++ fly fl.turn result.sent
    sent := f.sent ++ fly fl.turn result.sent
    got := f.got ++ [fl]
    done := if result.released then Function.update f.done r (f.done r + 1) else f.done }

def deliver (cfg : Config) (f : Fabric) (fl : Flight) : Fabric :=
  match fl.hop.dest with
  | .tor _ | .core => f.atSwitch cfg fl
  | .worker w => f.atWorker cfg fl w

def releases (cfg : Config) (f : Fabric) (fl : Flight) : Bool :=
  match fl.hop.dest with
  | .tor _ | .core => false
  | .worker w => ((f.net.worker w).receivePacket cfg f.objs fl.hop.packet).released

/-- The two entries of a layer erased at one switch, at the end of allreduce `turn`. -/
def clean (cfg : Config) (f : Fabric) (x : Node) (l : Layer) (turn : Nat) : Fabric :=
  { f with
    net := f.net.setSwitch x ((f.net.switch x).clean (l.cut cfg))
    held := f.held.filter fun fl => !decide (fl.hop.dest = x ∧ fl.layer = l)
    lost := f.lost ++
      f.held.filter fun fl => decide (fl.hop.dest = x ∧ fl.layer = l ∧ turn < fl.turn)
    cleaned := Function.update f.cleaned x (Function.update (f.cleaned x) l (f.cleaned x l + 1)) }

/-- The tail of `allreduce` that cleans the switches. -/
def cleanUp (cfg : Config) (f : Fabric) (r : TensorRef) (turn : Nat) : Fabric :=
  let w := f.net.worker r.machine
  let tor := f.net.tor w.tor
  if w.cleanToRForJob.get r.job then
    let f := f.clean cfg (.tor w.tor) r.layer turn
    if tor.cleanUpperLevelSwitchForJob.get r.job && tor.upperLevelSwitch.isSome then
      f.clean cfg .core r.layer turn
    else f
  else f

end Fabric
end CloudSim
