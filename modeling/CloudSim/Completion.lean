import CloudSim.Buffers
import CloudSim.Drain
import CloudSim.SingleAllreduce

/-! An allreduce over the queues of the network: when it has ended. -/
namespace CloudSim.SingleAllreduce

def protocol (cfg : Config) (tree : Tree) (l : Layer) : Protocol Label Fabric where
  step := step cfg tree l
  fabric f := f
  deliver := .deliver
  delivered
    | .deliver fl => some fl
    | .start _ => none

theorem protocol_lawful (cfg : Config) (tree : Tree) (l : Layer) :
    (protocol cfg tree l).Lawful cfg where
  delivers fl f g taken := by
    have taken : step cfg tree l (.deliver fl) f = some g := taken
    simp only [step] at taken
    split at taken <;> cases taken
    rfl
  sends label f g other taken := by
    change ∃ new, g.inflight = f.inflight ++ new
    have taken : step cfg tree l label f = some g := taken
    cases label with
    | deliver fl => cases other
    | start w =>
      simp only [step] at taken
      split at taken <;> cases taken
      exact ⟨_,rfl⟩

/-- A job in a network that holds no entry for its layer `l`. -/
structure Placeable (cfg : Config) (topo : HierarchicalTopology) (tree : Tree) (l : Layer)
    (gradSize : Nat) (net : Network) (objs : Objects) : Prop where
  slots : 0 < cfg.numSlots
  updates : 0 < cfg.numUpdates
  positive : 0 < gradSize
  bound : gradSize + cfg.numUpdates * cfg.numSlots < 2^32
  several : 2 ≤ tree.workers.length
  torOf : tree.torOf = topo.hostToRSwitch
  existing : ∀ w ∈ tree.workers, w < topo.ports * (topo.ports - 1)
  built : HierarchicalTopology.Built topo net
  unplaced : HierarchicalTopology.Unplaced l.1 net
  fresh : Flow.Fresh (traffic cfg tree l gradSize topo.ports) net
  allocated : objs.numWorkersAllocated l.1 = tree.workers.length
  size : ∀ w ∈ tree.workers, (objs.tensor (l.ref w)).size = gradSize

/-- The job is placed. -/
def placed (topo : HierarchicalTopology) (tree : Tree) (l : Layer) (net : Network) (objs : Objects) :
    Fabric :=
  { net := topo.setSwitchNumUpdates l.1 tree.workers tree.tors net, objs := objs }

/-- The time of all hops of an allreduce, if every queue holds a packet of every slot. -/
def duration (cfg : Config) (tree : Tree) (gradSize : Nat) (spec : QueueSpec Hop) (bytes : Nat) : Nat :=
  tree.height * Lanes.rounds (cfg.pkts gradSize) cfg.numSlots 0 *
    (cfg.numSlots * bytes * spec.psPerByte)

/-- All workers have received every result, each one once, and nothing is under way. -/
structure Complete (cfg : Config) (tree : Tree) (l : Layer) (gradSize : Nat) (f : Fabric) : Prop where
  quiet : f.inflight = []
  noShadow : f.shadowed = []
  done : ∀ w ∈ tree.workers, f.done (l.ref w) = 1
  receivedOnce : ∀ w, ((f.got.filter fun fl => fl.hop.dest = .worker w).map
    fun fl => fl.hop.packet.offset).Nodup
  received : ∀ w ∈ tree.workers, ∀ k, k * cfg.numUpdates < gradSize →
    ∃ fl ∈ f.got, fl.hop.dest = .worker w ∧ fl.hop.packet.offset = k * cfg.numUpdates

section run
variable {cfg : Config} {topo : HierarchicalTopology} {tree : Tree} {l : Layer} {gradSize : Nat}
  {net : Network} {objs : Objects} {f : Fabric}

namespace Placeable
variable (ready : Placeable cfg topo tree l gradSize net objs)
include ready

theorem few : tree.workers.length < 2^31 := by
  have few := topo.wids_length_lt tree.workersDistinct ready.existing
  exact few

theorem sound (coreId : Nat) : (traffic cfg tree l gradSize coreId).Sound where
  slots := ready.slots
  updates := ready.updates
  several _ _ := ready.several
  few _ _ := ready.few
  positive _ _ := ready.positive
  noWrap _ _ := Config.noWrap_of_bound ready.updates ready.slots ready.bound
  apart a first b second _ := (show a = l from first).trans (show b = l from second).symm

theorem inv_of_run (run : Runs.Run (step cfg tree l) Runs.anyStep (placed topo tree l net objs) f) :
    ∃ coreId, Inv cfg tree l gradSize coreId f ∧ HierarchicalTopology.Built topo f.net := by
  have few := ready.few
  have edits := topo.setSwitchNumUpdates_edits l.1 tree.workers tree.tors net
  have wired := topo.setSwitchNumUpdates_wired tree ready.torOf ready.built ready.unplaced (by omega)
  have kept := ready.fresh.of_records edits.records
  unfold placed at run
  generalize topo.setSwitchNumUpdates l.1 tree.workers tree.tors net = after at *
  have sound := ready.sound after.core.id
  have initial := Flow.initial sound True objs (fun m (same : m = l) => same ▸ wired) rfl
    (fun m (same : m = l) => same ▸ ready.allocated) ⟨kept.counts,kept.seen,kept.received⟩
  have preserved (label : Label) (f g : Fabric)
      (before : Inv cfg tree l gradSize after.core.id f ∧ HierarchicalTopology.Built topo f.net)
      (allowed : Runs.anyStep label f) (taken : step cfg tree l label f = some g) :
      Inv cfg tree l gradSize after.core.id g ∧ HierarchicalTopology.Built topo g.net := by
    refine ⟨step_inv sound label f g before.1 allowed taken,?_⟩
    cases label with
    | start w =>
      simp only [step] at taken
      split at taken <;> cases taken
      exact before.2
    | deliver fl =>
      simp only [step] at taken
      split at taken <;> cases taken
      obtain ⟨tors,core,workers⟩ := f.config_deliver cfg fl
      exact before.2.of_config tors core workers
  have reached := run.invariant preserved
    ⟨⟨⟨_,initial⟩,fun _ => Nat.zero_le 1,ready.size,rfl,fun _ => rfl⟩,edits.built ready.built⟩
  exact ⟨_,reached⟩

/-- The packets have their place in queues with room for one packet of every slot. -/
theorem within (spec : QueueSpec Hop)
    (run : Runs.Run (step cfg tree l) Runs.anyStep (placed topo tree l net objs) f) :
    Within ⟨cfg,spec,topo.routeFrom⟩ topo cfg.numSlots f := by
  obtain ⟨coreId,inv,built⟩ := ready.inv_of_run run
  obtain ⟨lad,flow⟩ := inv.flow
  have listed (m : Layer) (same : m = l) : m ∈ [l] := List.mem_singleton.mpr same
  have within : Within ⟨cfg,spec,topo.routeFrom⟩ topo _ f := flow.within rfl (fun _ _ => ready.torOf)
    (fun _ _ => ready.existing) built listed
  have one : [l].length * cfg.numSlots = cfg.numSlots := Nat.one_mul _
  exact { within with few := fun i => (within.few i).trans one.le }

end Placeable

theorem begun_of_step (begun : ∀ w ∈ tree.workers, 0 < f.begun (l.ref w))
    (taken : step cfg tree l label f = some g) :
    (∀ w ∈ tree.workers, 0 < g.begun (l.ref w)) ∧ ∃ fl ∈ f.inflight, label = .deliver fl := by
  cases label with
  | start w =>
    simp only [step] at taken
    split at taken
    case isFalse => cases taken
    rename_i may
    exact absurd may.2 (begun w may.1).ne'
  | deliver fl =>
    simp only [step] at taken
    split at taken <;> cases taken
    rename_i member
    have same : (f.deliver cfg fl).begun = f.begun := (f.deliver_fields cfg fl).1
    exact ⟨by rw [same]; exact begun,fl,member,rfl⟩

theorem begun_of_run (begun : ∀ w ∈ tree.workers, 0 < f.begun (l.ref w))
    (run : Runs.Run (step cfg tree l) Runs.anyStep f g) :
    ∀ w ∈ tree.workers, 0 < g.begun (l.ref w) := by
  have kept := run.invariant (fun _ _ _ before _ taken => (begun_of_step before taken).1) begun
  exact kept

theorem Placeable.descends (ready : Placeable cfg topo tree l gradSize net objs)
    (run : Runs.Run (step cfg tree l) Runs.anyStep (placed topo tree l net objs) f)
    (begun : ∀ w ∈ tree.workers, 0 < f.begun (l.ref w)) :
    (protocol cfg tree l).Descends cfg Runs.anyStep (traffic cfg tree l gradSize 0).depth
      (tree.height * Lanes.rounds (cfg.pkts gradSize) cfg.numSlots 0) f where
  silent p more label p' other _ taken := by
    obtain ⟨_,fl,_,rfl⟩ := begun_of_step (begun_of_run begun more) taken
    cases other
  ready p more fl member := by
    have taken : (protocol cfg tree l).step ((protocol cfg tree l).deliver fl) p =
      some (p.deliver cfg fl) := if_pos member
    rw [taken]
    rfl
  deeper p more fl member hop new := by
    obtain ⟨coreId,inv,_⟩ := ready.inv_of_run (run.trans more)
    obtain ⟨lad,flow⟩ := inv.flow
    exact (flow.sends_depth (ready.sound coreId) member new).1
  below p more fl member := by
    obtain ⟨coreId,inv,_⟩ := ready.inv_of_run (run.trans more)
    obtain ⟨lad,flow⟩ := inv.flow
    have layer : fl.layer = l := (flow.links.proper fl member).1
    have below := flow.depth_lt (ready.sound coreId) member
    rw [layer] at below
    exact below

theorem Placeable.complete (ready : Placeable cfg topo tree l gradSize net objs)
    (run : Runs.Run (step cfg tree l) Runs.anyStep (placed topo tree l net objs) f)
    (begun : ∀ w ∈ tree.workers, 0 < f.begun (l.ref w)) (quiet : f.inflight = []) :
    Complete cfg tree l gradSize f := by
  obtain ⟨coreId,inv,_⟩ := ready.inv_of_run run
  have correct := correct inv (ready.sound coreId)
  have ended := correct.quiet quiet begun
  exact ⟨quiet,correct.noShadow,fun w worker => (ended w worker).1,correct.receivedOnce,
    fun w worker => (ended w worker).2⟩

end run

/-- When all workers have called `allreduce`, queues with room for one packet of every slot drop
nothing, and the allreduce ends within the time of its hops: no order of events keeps it longer
under way, and nothing else has to happen for it to end. -/
theorem allreduce_completes (cfg : Config) (topo : HierarchicalTopology) (tree : Tree) (l : Layer)
    (gradSize : Nat) (net : Network) (objs : Objects)
    (ready : Placeable cfg topo tree l gradSize net objs) (spec : QueueSpec Hop) (bytes : Nat)
    (size : ∀ hop, spec.size hop ≤ bytes) (small : bytes < 2^16)
    (room : cfg.numSlots * bytes ≤ spec.maxsize) (s : Carried Fabric)
    (run : Runs.Run ((protocol cfg tree l).carry ⟨cfg,spec,topo.routeFrom⟩)
      (Protocol.among Runs.anyStep) ((protocol cfg tree l).initial (placed topo tree l net objs)) s)
    (begun : ∀ w ∈ tree.workers, 0 < s.program.begun (l.ref w)) :
    (∀ t, Runs.Run ((protocol cfg tree l).carry ⟨cfg,spec,topo.routeFrom⟩)
        (Protocol.among Runs.anyStep) s t →
      (∀ i, ∀ o ∈ (t.network.queues i).offers, o.taken = true) ∧
      (s.network.events.now + duration cfg tree gradSize spec bytes < t.network.events.now →
        Complete cfg tree l gradSize t.program)) ∧
    ∃ t, Runs.Run ((protocol cfg tree l).carry ⟨cfg,spec,topo.routeFrom⟩)
        (Protocol.among fun _ _ => False) s t ∧
      t.network.events.now ≤ s.network.events.now + duration cfg tree gradSize spec bytes ∧
      Complete cfg tree l gradSize t.program := by
  have lawful := protocol_lawful cfg tree l
  have built : QueueNetwork.Built topo.routeFrom := .hierarchical topo
  have fits (hop : Hop) : spec.size hop < 2^16 := (size hop).trans_lt small
  have mirrors₀ : (protocol cfg tree l).Mirrors ⟨cfg,spec,topo.routeFrom⟩ (cfg.numSlots * bytes)
    ((protocol cfg tree l).initial (placed topo tree l net objs)) := Protocol.initial_mirrors _ rfl
  obtain ⟨reached,mirrors⟩ := Protocol.mirrors_of_run lawful size small room built
    (fun _ _ => trivial) (fun p => ready.within spec) mirrors₀ run
  have network := Protocol.network_of_run built fits mirrors₀.sound run
  obtain ⟨_,timely⟩ := QueueNetwork.timely_of_run built fits network
  have descends := ready.descends reached begun
  have within (f : Fabric) (more : Runs.Run (step cfg tree l) Runs.anyStep s.program f) :
      Within ⟨cfg,spec,topo.routeFrom⟩ topo cfg.numSlots f := ready.within spec (reached.trans more)
  refine ⟨fun t more => ?_,?_⟩
  · have draining := Protocol.draining_of_run lawful size small room built (fun _ _ => trivial) within
      descends mirrors timely more
    refine ⟨fun i o member => (draining.mirrors.carries.taken i o member).1,fun late => ?_⟩
    refine ready.complete (reached.trans draining.reached) (begun_of_run begun draining.reached) ?_
    by_contra busy
    obtain ⟨fl,member⟩ := List.exists_mem_of_ne_nil _ busy
    obtain ⟨_,_,soon⟩ := draining.soon within descends member
    exact absurd soon (Nat.not_le.mpr late)
  · have draining := Protocol.draining_of_run lawful size small room built (fun _ _ => trivial) within
      descends mirrors timely .nil
    obtain ⟨t,alone,drained,quiet,soon⟩ := draining.drains lawful size small room built
      (fun _ _ => trivial) within descends (Nat.le_add_right _ _)
    exact ⟨t,alone,soon,ready.complete (reached.trans drained.reached)
      (begun_of_run begun drained.reached) quiet⟩

theorem twoTors_placeable :
    Placeable oneSlot threePorts twoTors (0,0) 3 threePorts.initNetwork threeWorkers where
  slots := by decide
  updates := by decide
  positive := by decide
  bound := by decide
  several := by decide
  torOf := rfl
  existing := by decide
  built := threePorts.initNetwork_built
  unplaced := threePorts.initNetwork_unplaced 0
  fresh := ⟨fun _ _ x _ => by cases x <;> rfl,fun _ _ x _ => by cases x <;> rfl,fun _ _ _ => rfl⟩
  allocated := rfl
  size := by decide

/-- Two rounds of four hops, with one packet of three time units in a queue at a time. -/
theorem allreduce_completes_two_tors :
    ∃ s t, Runs.Run ((protocol oneSlot twoTors (0,0)).carry
          ⟨oneSlot,Training.onePacketBuffer,threePorts.routeFrom⟩) (Protocol.among Runs.anyStep)
        ((protocol oneSlot twoTors (0,0)).initial
          (placed threePorts twoTors (0,0) threePorts.initNetwork threeWorkers)) s ∧
      Runs.Run ((protocol oneSlot twoTors (0,0)).carry
          ⟨oneSlot,Training.onePacketBuffer,threePorts.routeFrom⟩)
        (Protocol.among fun _ _ => False) s t ∧
      t.network.events.now ≤ 24 ∧ Complete oneSlot twoTors (0,0) 3 t.program := by
  have ends : (Runs.exec ((protocol oneSlot twoTors (0,0)).carry
      ⟨oneSlot,Training.onePacketBuffer,threePorts.routeFrom⟩) (Protocol.among Runs.anyStep)
      [.act (.start 0),.act (.start 1),.act (.start 2)]
      ((protocol oneSlot twoTors (0,0)).initial
        (placed threePorts twoTors (0,0) threePorts.initNetwork threeWorkers))).map
      (fun s => decide ((∀ w ∈ twoTors.workers, 0 < s.program.begun (Layer.ref (0,0) w)) ∧
        s.network.events.now = 0)) = some true := by decide +kernel
  obtain ⟨s,run,view⟩ := Runs.exists_run_of_exec ends
  obtain ⟨begun,now⟩ := of_decide_eq_true view
  obtain ⟨_,t,alone,soon,complete⟩ := allreduce_completes oneSlot threePorts twoTors (0,0) 3
    threePorts.initNetwork threeWorkers twoTors_placeable Training.onePacketBuffer 3
    (fun _ => Nat.le_refl 3) (by decide) (by decide) s run begun
  rw [now] at soon
  exact ⟨s,t,run,alone,soon,complete⟩

end CloudSim.SingleAllreduce
