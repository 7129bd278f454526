import CloudSim.Entries

/-! Jobs placed on a two-level network, and what the end of a worker's `allreduce` does there. -/
namespace CloudSim

/-- The jobs of a simulation and where each is placed. `chunkSize` is what a collective scheduler
passes to `allreduce`; 0 stands for whole tensors. -/
structure Deployment where
  topo : HierarchicalTopology
  cfg : Config
  chunkSize : Nat
  tree : Nat → Tree
  modelSize : Nat → Nat
  size : Layer → Nat
  slots : 0 < cfg.numSlots
  updates : 0 < cfg.numUpdates
  torOf : ∀ j, (tree j).torOf = topo.hostToRSwitch
  existing : ∀ j, ∀ w ∈ (tree j).workers, w < topo.ports * (topo.ports - 1)
  staffed : ∀ j, 0 < (tree j).workers.length
  positive : ∀ l, 0 < size l
  sizeFits : ∀ l, size l < 2^64

namespace Deployment
variable (d : Deployment)

/-- The layers in use as traffic; `size` is the gradient of each allreduce. -/
def traffic (size : Layer → Nat) (opened : List Layer) : Traffic :=
  ⟨d.cfg,d.tree,size,{ l | l ∈ opened },d.topo.ports⟩

theorem few (j : Nat) : (d.tree j).workers.length < 2^31 :=
  d.topo.wids_length_lt (d.tree j).workersDistinct (d.existing j)

theorem exists_worker (j : Nat) : ∃ w, w ∈ (d.tree j).workers :=
  List.exists_mem_of_length_pos (d.staffed j)

def objects : Objects where
  tensor r := { size := d.size r.layer }
  numWorkersAllocated j := (d.tree j).workers.length
  modelSize := d.modelSize

end Deployment

structure Laid (d : Deployment) (jobs : List Nat) (net : Network) : Prop where
  built : HierarchicalTopology.Built d.topo net
  unplaced : ∀ j, j ∉ jobs → HierarchicalTopology.Unplaced j net
  wired : ∀ j ∈ jobs, Wired (d.tree j) j net
  coreId : net.core.id = d.topo.ports

namespace Laid
variable {jobs : List Nat} {net net' : Network}

theorem of_config (laid : Laid d jobs net) (tors : ∀ t, (net'.tor t).config = (net.tor t).config)
    (core : net'.core.config = net.core.config)
    (workers : ∀ w, (net'.worker w).config = (net.worker w).config) : Laid d jobs net' where
  built := laid.built.of_config tors core workers
  unplaced j absent := (laid.unplaced j absent).of_config tors core workers
  wired j member := (laid.wired j member).of_config tors core workers
  coreId := (congrArg Switch.id core).trans laid.coreId

theorem place (laid : Laid d jobs net) (fresh : j ∉ jobs) : Laid d (jobs ++ [j])
    (d.topo.setSwitchNumUpdates j (d.tree j).workers (d.tree j).tors net) := by
  have edits := d.topo.setSwitchNumUpdates_edits j (d.tree j).workers (d.tree j).tors net
  refine ⟨edits.built laid.built,fun i absent => ?_,fun i member => ?_,
    edits.core.id.trans laid.coreId⟩
  · rw [List.mem_append,List.mem_singleton,not_or] at absent
    exact edits.unplaced absent.2 (laid.unplaced i absent.1)
  · rcases List.mem_append.mp member with old | new
    · exact edits.wired (fun same => fresh (same ▸ old)) (laid.wired i old)
    · rw [List.mem_singleton.mp new]
      exact d.topo.setSwitchNumUpdates_wired (d.tree j) (d.torOf j) laid.built
        (laid.unplaced j fresh) ((d.few j).trans (by decide))

end Laid

namespace Fabric

/-- What the end of `allreduce` does to the end-of-iteration counter and the tensor. -/
def tally (f : Fabric) (r : TensorRef) (gradSize : Nat) : Fabric :=
  let t := f.objs.tensor r
  let counted := (f.net.worker r.machine).countAllreduce t.iter (f.objs.modelSize r.job)
  let f := { f with net := f.net.setWorker r.machine counted.1 }
  f.setTensor r (Worker.advanceTensor t gradSize)

/-- The second half of `allreduce`, from the second grant of its lock to its end. -/
def finish (cfg : Config) (f : Fabric) (r : TensorRef) (gradSize turn : Nat) : Fabric :=
  (f.tally r gradSize).cleanUp cfg r turn

theorem worker_tally (f : Fabric) (r : TensorRef) (gradSize v : Nat) :
    ((f.tally r gradSize).net.worker v).config = (f.net.worker v).config ∧
      ((f.tally r gradSize).net.worker v).receivedPkts = (f.net.worker v).receivedPkts := by
  change ((f.net.setWorker r.machine _).worker v).config = _ ∧
    ((f.net.setWorker r.machine _).worker v).receivedPkts = _
  rcases eq_or_ne v r.machine with rfl | other
  · rw [Network.setWorker_same,Worker.countAllreduce]
    split <;> exact ⟨rfl,rfl⟩
  · rw [Network.setWorker_other _ _ other]
    exact ⟨rfl,rfl⟩

end Fabric
end CloudSim
