import CloudSim.BackToBack
import CloudSim.Carriage
import CloudSim.Ledger
import CloudSim.RoundsClean
import Mathlib.Data.List.ProdSigma

/-! How many packets can be in one queue of the two-level network: at most one of every slot of
every layer that is being reduced. Buffers with room for these drop no packet. -/
namespace CloudSim

def Link.sender (tree : Tree) : Link → Node
  | up w => .worker w
  | rise t => .tor t
  | fall _ => .core
  | down w => .tor (tree.torOf w)

theorem Link.eq_of_ends {tree other : Tree} {k j : Link} (senders : k.sender tree = j.sender other)
    (dests : k.dest tree = j.dest other) : k = j := by
  cases k <;> cases j <;> simp_all [Link.sender,Link.dest]

theorem Traffic.flight_sender (tr : Traffic) (p : Place) (q owner : Nat) :
    (tr.flight p q owner).hop.sender = p.link.sender (tr.tree p.layer.1) := by
  obtain ⟨l,s,link⟩ := p
  cases link <;> rfl

theorem HierarchicalTopology.routeFrom_link (topo : HierarchicalTopology) {tree : Tree} {k : Link}
    (torOf : tree.torOf = topo.hostToRSwitch)
    (existing : ∀ w ∈ tree.workers, w < topo.ports * (topo.ports - 1)) (valid : k.Valid tree) :
    ∃ r, topo.routeFrom (k.sender tree) (k.dest tree) = some r ∧ r.last = k.dest tree := by
  have constructed := topo.construct_constructed
  have linked := topo.linkAll_linked
  have tor (t : Nat) (inside : t ∈ tree.tors) : t < topo.ports := by
    obtain ⟨w,worker,rfl⟩ := (tree.involved t).mp inside
    exact torOf ▸ topo.hostToRSwitch_lt (existing w worker)
  cases k with
  | up w =>
    obtain ⟨queue,found⟩ := constructed.routeToTor w (existing w valid)
    exact ⟨_,found,by rw [Link.dest,torOf]⟩
  | rise t =>
    obtain ⟨queue,found⟩ := constructed.upRoute t (tor t valid.1)
    exact ⟨_,found,rfl⟩
  | fall t =>
    obtain ⟨queue,found⟩ := Option.isSome_iff_exists.mp ((linked.coreTor 0 t).mpr ⟨tor t valid.1,rfl⟩)
    exact ⟨⟨queue,.tor t⟩,Option.map_eq_some_iff.mpr ⟨queue,found,rfl⟩,rfl⟩
  | down w =>
    obtain ⟨queue,found⟩ := Option.isSome_iff_exists.mp
      ((linked.torWorker (tree.torOf w) w).mpr ⟨existing w valid,by rw [torOf]⟩)
    exact ⟨⟨queue,.worker w⟩,Option.map_eq_some_iff.mpr ⟨queue,found,rfl⟩,rfl⟩

namespace Flow
variable {tr : Traffic} {exact : Prop} {lad : Ladders} {f : Fabric} {c : Cabling}

theorem sender_dest (flow : Flow tr exact lad f) (member : fl ∈ f.inflight) :
    fl.hop.sender = fl.place.link.sender (tr.tree fl.place.layer.1) ∧
      fl.hop.dest = fl.place.link.dest (tr.tree fl.place.layer.1) := by
  obtain ⟨owner,_,_,stamp⟩ := flow.links.stamped fl member
  have sender := tr.flight_sender fl.place (lad.low fl.place) owner
  have dest : (tr.flight fl.place (lad.low fl.place) owner).hop.dest =
      fl.place.link.dest (tr.tree fl.place.layer.1) := rfl
  rw [← stamp] at sender dest
  exact ⟨sender,dest⟩

/-- One packet of every slot of every layer at most crosses a queue. -/
theorem across_le (flow : Flow tr exact lad f) (one : OneLinkEach c.route)
    (routed : ∀ fl ∈ f.inflight, ∃ r, c.route fl.hop.sender fl.hop.dest = some r ∧
      r.last = fl.hop.dest) {layers : List Layer} (listed : ∀ l ∈ tr.active, l ∈ layers) (i : Nat) :
    (c.across i f.inflight).length ≤ layers.length * tr.cfg.numSlots := by
  have key (fl : Flight) (member : fl ∈ c.across i f.inflight) : fl ∈ f.inflight ∧
      ∃ r, c.route fl.hop.sender fl.hop.dest = some r ∧ r.last = fl.hop.dest ∧ r.queue = i := by
    obtain ⟨inside,crosses⟩ := List.mem_filter.mp member
    obtain ⟨r,found,last⟩ := routed fl inside
    refine ⟨inside,r,found,last,?_⟩
    simpa [Cabling.queueOf,found] using crosses
  have places : ((c.across i f.inflight).map Flight.place).Nodup :=
    (List.filter_sublist.map Flight.place).nodup flow.links.distinct
  -- on one queue the slot and the layer tell the place
  have slots : ((c.across i f.inflight).map fun fl => (fl.place.layer,fl.place.slot)).Nodup := by
    rw [List.Nodup,List.pairwise_map] at places ⊢
    refine places.imp_of_mem fun {a b} first second apart same => apart ?_
    obtain ⟨inside,r,found,last,queue⟩ := key a first
    obtain ⟨also,r',found',last',queue'⟩ := key b second
    obtain ⟨senders,dests⟩ := one.own _ _ _ _ _ _ found found' (queue.trans queue'.symm)
    rw [last,last'] at dests
    obtain ⟨sender,dest⟩ := flow.sender_dest inside
    obtain ⟨sender',dest'⟩ := flow.sender_dest also
    have link := Link.eq_of_ends (sender.symm.trans (senders.trans sender'))
      (dest.symm.trans (dests.trans dest'))
    obtain ⟨layer,slot⟩ := Prod.mk.inj same
    rcases placed : a.place with ⟨l,s,k⟩
    rcases placed' : b.place with ⟨l',s',k'⟩
    rw [placed,placed'] at layer slot link
    exact Place.mk.injEq .. ▸ ⟨layer,slot,link⟩
  have inside : ((c.across i f.inflight).map fun fl => (fl.place.layer,fl.place.slot)) ⊆
      layers ×ˢ List.range tr.cfg.numSlots := by
    intro pair member
    obtain ⟨fl,here,rfl⟩ := List.mem_map.mp member
    have proper := flow.links.proper fl (key fl here).1
    exact List.mem_product.mpr ⟨listed _ proper.1,List.mem_range.mpr proper.2.1⟩
  have total := (slots.subperm inside).length_le
  rwa [List.length_map,List.length_product,List.length_range] at total

theorem within (flow : Flow tr exact lad f) {topo : HierarchicalTopology}
    (route : c.route = topo.routeFrom)
    (torOf : ∀ l ∈ tr.active, (tr.tree l.1).torOf = topo.hostToRSwitch)
    (existing : ∀ l ∈ tr.active, ∀ w ∈ (tr.tree l.1).workers, w < topo.ports * (topo.ports - 1))
    (built : HierarchicalTopology.Built topo f.net) {layers : List Layer}
    (listed : ∀ l ∈ tr.active, l ∈ layers) :
    Within c topo (layers.length * tr.cfg.numSlots) f := by
  have routed (fl : Flight) (member : fl ∈ f.inflight) :
      ∃ r, c.route fl.hop.sender fl.hop.dest = some r ∧ r.last = fl.hop.dest := by
    have proper := flow.links.proper fl member
    obtain ⟨sender,dest⟩ := flow.sender_dest member
    rw [route,sender,dest]
    exact topo.routeFrom_link (torOf _ proper.1) (existing _ proper.1) proper.2.2
  refine ⟨built,fun fl member core => ?_,routed,
    flow.across_le (route ▸ topo.routeFrom_oneLinkEach) routed listed⟩
  have proper := flow.links.proper fl member
  have dest := (flow.sender_dest member).2
  have tall : (tr.tree fl.place.layer.1).flat = false := by
    have valid := proper.2.2
    rw [core] at dest
    cases link : fl.place.link <;> rw [link] at dest valid <;> first | exact valid.2 | cases dest
  have job : fl.hop.packet.jobId = fl.place.layer.1 := by
    obtain ⟨owner,_,_,stamp⟩ := flow.links.stamped fl member
    rw [stamp,tr.flight_place]
    rfl
  rw [job]
  exact (flow.wired _ proper.1).coreTop tall

end Flow

/-- The queues and routes that a deployment's network is built with. -/
def Deployment.cabling (d : Deployment) (spec : QueueSpec Hop) : Cabling :=
  ⟨d.cfg,spec,d.topo.routeFrom⟩

theorem Deployment.cabling_built (d : Deployment) (spec : QueueSpec Hop) :
    QueueNetwork.Built (d.cabling spec).route := .hierarchical d.topo

namespace Training

def protocol (d : Plan) : Protocol Label Training where
  step := step d
  fabric := Training.fabric
  deliver := .deliver
  delivered
    | .deliver fl => some fl
    | .place _ | .execute _ _ | .elapse _ _ | .resume _ | .call _ => none

theorem protocol_lawful (d : Plan) : (protocol d).Lawful d.cfg where
  delivers fl s t taken := by
    have taken : step d (.deliver fl) s = some t := taken
    cases stepped taken with
    | deliver _ _ => exact (s.deliver_fields d fl).1
  sends l s t other taken := by
    change ∃ new, t.fabric.inflight = s.fabric.inflight ++ new
    have taken : step d l s = some t := taken
    cases stepped taken with
    | place _ => exact ⟨[],(List.append_nil _).symm⟩
    | @execute j w _ _ _ =>
      obtain ⟨p,onward,_⟩ := s.iterate_onward d w j 0
      exact ⟨[],by rw [onward.fabric,List.append_nil]⟩
    | elapse taken => exact ⟨[],by rw [(elapse_frame taken).1,List.append_nil]⟩
    | job _ taken =>
      obtain ⟨p,onward,_⟩ := resumeJob_frame taken
      exact ⟨[],by rw [onward.fabric,List.append_nil]⟩
    | launch _ _ => exact ⟨_,rfl⟩
    | @finish r k g _ _ =>
      refine ⟨[],?_⟩
      rw [(finish_fields d _ r k g).1,Fabric.inflight_finish,List.append_nil]
    | call _ _ _ => exact ⟨[],(List.append_nil _).symm⟩
    | deliver _ _ => cases other

/-- The jobs that are placed come from a trace. -/
def placesFrom (trace : List Nat) : Label → Training → Prop
  | .place j,_ => j ∈ trace
  | .execute _ _,_ | .elapse _ _,_ | .resume _,_ | .call _,_ | .deliver _,_ => True

instance (trace : List Nat) (label : Label) (s : Training) :
    Decidable (placesFrom trace label s) :=
  match label with
  | .place _ => inferInstanceAs (Decidable (_ ∈ _))
  | .execute _ _ | .elapse _ _ | .resume _ | .call _ | .deliver _ => isTrue trivial

theorem jobs_of_run {d : Plan} {trace : List Nat}
    (run : Runs.Run (step d) (placesFrom trace) (initial d) s) : s.jobs.Nodup ∧ s.jobs ⊆ trace := by
  have preserved (label : Label) (s t : Training) (before : s.jobs.Nodup ∧ s.jobs ⊆ trace)
      (allowed : placesFrom trace label s) (taken : step d label s = some t) :
      t.jobs.Nodup ∧ t.jobs ⊆ trace := by
    cases stepped taken with
    | @place j fresh =>
      refine ⟨List.nodup_append.mpr ⟨before.1,List.nodup_singleton j,?_⟩,?_⟩
      · rintro i old _ new rfl
        exact fresh (List.mem_singleton.mp new ▸ old)
      · exact List.append_subset.mpr ⟨before.2,fun i new => List.mem_singleton.mp new ▸ allowed⟩
    | @execute j w _ _ _ =>
      obtain ⟨p,onward,_⟩ := s.iterate_onward d w j 0
      rwa [onward.jobs]
    | elapse taken => rwa [elapse_jobs taken]
    | job _ taken =>
      obtain ⟨p,onward,_⟩ := resumeJob_frame taken
      rwa [onward.jobs]
    | launch _ _ => exact before
    | @finish r k g _ _ => rwa [(finish_fields d _ r k g).2.1]
    | call _ _ _ => exact before
    | deliver _ _ => rwa [(s.deliver_fields d _).2.1]
  have kept := run.invariant preserved ⟨List.nodup_nil,List.nil_subset _⟩
  exact kept

def layersOf (d : Plan) (jobs : List Nat) : List Layer :=
  jobs.flatMap fun j => (List.range (d.modelSize j)).map fun t => (j,t)

theorem layersOf_length (d : Plan) {jobs trace : List Nat} (distinct : jobs.Nodup) (inside : jobs ⊆ trace) :
    (layersOf d jobs).length ≤ (trace.map d.modelSize).sum := by
  have length : (layersOf d jobs).length = (jobs.map d.modelSize).sum := by
    simp [layersOf,List.length_flatMap]
  obtain ⟨part,same,sub⟩ := distinct.subperm inside
  rw [length,← (same.map d.modelSize).sum_eq]
  exact (sub.map d.modelSize).sum_le_sum fun _ _ => Nat.zero_le _

/-- While jobs train without a collective scheduler, buffers with room for one packet of every slot
of every tensor drop none, and the training is one in which packets arrive in some order. -/
theorem training_over_queues (d : Plan) (direct : d.scheduled = false) (cut : d.DistinctCut)
    (noWrap : d.NoWrap) (trace : List Nat) (spec : QueueSpec Hop) (bytes : Nat)
    (size : ∀ hop, spec.size hop ≤ bytes) (small : bytes < 2^16)
    (room : (trace.map d.modelSize).sum * d.cfg.numSlots * bytes ≤ spec.maxsize)
    (s : Carried Training)
    (run : Runs.Run ((protocol d).carry (d.cabling spec)) (Protocol.among (placesFrom trace))
      ((protocol d).initial (initial d)) s) :
    Runs.Run (step d) (placesFrom trace) (initial d) s.program ∧
      (protocol d).Mirrors (d.cabling spec) ((trace.map d.modelSize).sum * d.cfg.numSlots * bytes) s := by
  have within (p : Training) (reached : Runs.Run (step d) (placesFrom trace) (initial d) p) :
      Within (d.cabling spec) d.topo ((trace.map d.modelSize).sum * d.cfg.numSlots) p.fabric := by
    obtain ⟨distinct,inside⟩ := jobs_of_run reached
    obtain ⟨lad,coupled⟩ := coupled_of_run d direct cut noWrap reached
    have within : Within (d.cabling spec) d.topo _ p.fabric := coupled.flow.within rfl
      (fun l _ => d.torOf l.1) (fun l _ => d.existing l.1) coupled.stocked.laid.built
      (fun l (active : l ∈ d.Layers p.jobs) =>
        show l ∈ layersOf d p.jobs from List.mem_flatMap.mpr ⟨l.1,active.1,
          List.mem_map.mpr ⟨l.2,List.mem_range.mpr active.2.1,rfl⟩⟩)
    have few := Nat.mul_le_mul_right d.cfg.numSlots (layersOf_length d distinct inside)
    exact { within with few := fun i => (within.few i).trans few }
  exact Protocol.mirrors_of_run (protocol_lawful d) size small room (d.cabling_built spec)
    (fun _ _ => trivial) within (Protocol.initial_mirrors _ rfl) run

/-- A buffer of one packet, which takes three time units. -/
def onePacketBuffer : QueueSpec Hop where
  bitrate := 8000000000000
  maxsize := 3
  size _ := 3

def firstEvents : List (Carried.Label Label) :=
  let both : List Label := [.place 0,.execute 0 0,.execute 1 0] ++ iteration 0 0 ++ iteration 1 0
  both.map .act ++ [.tick 3,.doNextEvent 1,.doNextEvent 3]

/-- Both workers train over the queues. The packets of one slot leave no room for another. -/
theorem training_over_queues_one_packet :
    ∃ s, Runs.Run ((protocol (onePacket 1)).carry ((onePacket 1).cabling onePacketBuffer))
        (Protocol.among (placesFrom [0])) ((protocol (onePacket 1)).initial (initial (onePacket 1)))
        s ∧
      ((s.network.queues 0).enqueued.length = 1 ∧ s.network.events.now = 3) ∧
      Runs.Run (step (onePacket 1)) (placesFrom [0]) (initial (onePacket 1)) s.program ∧
      (protocol (onePacket 1)).Mirrors ((onePacket 1).cabling onePacketBuffer) 3 s := by
  have ends : (Runs.exec ((protocol (onePacket 1)).carry ((onePacket 1).cabling onePacketBuffer))
      (Protocol.among (placesFrom [0])) firstEvents
      ((protocol (onePacket 1)).initial (initial (onePacket 1)))).map
      (fun s => decide ((s.network.queues 0).enqueued.length = 1 ∧ s.network.events.now = 3)) =
      some true := by decide +kernel
  obtain ⟨s,run,view⟩ := Runs.exists_run_of_exec ends
  exact ⟨s,run,of_decide_eq_true view,training_over_queues (onePacket 1) rfl (onePacket_distinctCut 1)
    (onePacket_noWrap 1) [0] onePacketBuffer 3 (fun _ => Nat.le_refl 3) (by decide) (by decide) s run⟩

end Training

namespace Rounds

def protocol (d : Deployment) : Protocol Label Rounds where
  step := step d
  fabric := Rounds.fabric
  deliver := .deliver
  delivered
    | .deliver fl => some fl
    | .place _ | .enqueue _ | .start _ | .launch _ | .finish _ => none

theorem finish_inflight (d : Deployment) (s : Rounds) (r : TensorRef) (gradSize : Nat) :
    (s.finish d r gradSize).fabric.inflight = s.fabric.inflight := by
  simp only [finish]
  split <;> exact s.fabric.inflight_finish r gradSize 0

theorem protocol_lawful (d : Deployment) : (protocol d).Lawful d.cfg where
  delivers fl s t taken := by
    have taken : step d (.deliver fl) s = some t := taken
    simp only [step] at taken
    split at taken <;> cases taken
    rfl
  sends l s t other taken := by
    change ∃ new, t.fabric.inflight = s.fabric.inflight ++ new
    have taken : step d l s = some t := taken
    cases l with
    | deliver fl => cases other
    | finish r =>
      simp only [step] at taken
      split at taken <;> cases taken
      exact ⟨[],by rw [finish_inflight,List.append_nil]⟩
    | launch r =>
      simp only [step] at taken
      split at taken <;> cases taken
      exact ⟨_,rfl⟩
    | place j | enqueue r | start l =>
      simp only [step] at taken
      split at taken <;> cases taken
      exact ⟨[],(List.append_nil _).symm⟩

/-- A round starts only while fewer than `n` are under way. -/
def fewer (n : Nat) : Label → Rounds → Prop
  | .start _,s => s.opened.length < n
  | .place _,_ | .enqueue _,_ | .launch _,_ | .deliver _,_ | .finish _,_ => True

instance (n : Nat) (label : Label) (s : Rounds) : Decidable (fewer n label s) :=
  match label with
  | .start _ => inferInstanceAs (Decidable (_ < _))
  | .place _ | .enqueue _ | .launch _ | .deliver _ | .finish _ => isTrue trivial

theorem opened_length {d : Deployment} (before : s.opened.length ≤ n) (allowed : fewer n label s)
    (taken : step d label s = some t) : t.opened.length ≤ n := by
  cases label with
  | start l =>
    simp only [step] at taken
    split at taken <;> cases taken
    rw [List.length_append]
    exact allowed
  | finish r =>
    simp only [step] at taken
    split at taken <;> cases taken
    simp only [finish]
    split
    · exact (List.length_erase_le).trans before
    · exact before
  | place j | enqueue r | launch r | deliver fl =>
    simp only [step] at taken
    split at taken <;> cases taken
    exact before

/-- While a collective scheduler has at most `n` tensors under way, buffers with room for `n`
packets of every slot drop none: one pool of slots is enough for one collective at a time. -/
theorem rounds_over_queues (d : Deployment) (n : Nat) (spec : QueueSpec Hop) (bytes : Nat)
    (size : ∀ hop, spec.size hop ≤ bytes) (small : bytes < 2^16)
    (room : n * d.cfg.numSlots * bytes ≤ spec.maxsize) (s : Carried Rounds)
    (run : Runs.Run ((protocol d).carry (d.cabling spec))
      (Protocol.among fun label s => apart d label s ∧ fewer n label s)
      ((protocol d).initial (initial d)) s) :
    Runs.Run (step d) (fun label s => apart d label s ∧ fewer n label s) (initial d) s.program ∧
      (protocol d).Mirrors (d.cabling spec) (n * d.cfg.numSlots * bytes) s := by
  have within (p : Rounds) (reached : Runs.Run (step d)
      (fun label s => apart d label s ∧ fewer n label s) (initial d) p) :
      Within (d.cabling spec) d.topo (n * d.cfg.numSlots) p.fabric := by
    have preserved (label : Label) (s t : Rounds)
        (before : ((∃ size base lad, Inv d size base lad s) ∧ Busy d s) ∧ s.opened.length ≤ n)
        (allowed : apart d label s ∧ fewer n label s) (taken : step d label s = some t) :
        ((∃ size base lad, Inv d size base lad t) ∧ Busy d t) ∧ t.opened.length ≤ n :=
      ⟨step_inv label s t before.1 allowed.1 taken,opened_length before.2 allowed.2 taken⟩
    have kept := reached.invariant preserved
      ⟨⟨⟨_,_,_,initial_inv d⟩,fun _ active => by cases active⟩,Nat.zero_le n⟩
    obtain ⟨⟨⟨size,base,lad,inv⟩,_⟩,few⟩ := kept
    have within : Within (d.cabling spec) d.topo _ p.fabric := inv.flow.within rfl
      (fun l _ => d.torOf l.1) (fun l _ => d.existing l.1) inv.laid.built
      (fun l (active : l ∈ p.opened) => active)
    exact { within with few := fun i => (within.few i).trans (Nat.mul_le_mul_right _ few) }
  exact Protocol.mirrors_of_run (protocol_lawful d) size small room (d.cabling_built spec)
    (fun _ _ => ⟨trivial,trivial⟩) within (Protocol.initial_mirrors _ rfl) run

/-- The round of the first chunk over the queues: up to the core, back down, and the next start. -/
def carriedChunk : List (Carried.Label Label) :=
  let begun : List Label := [.place 0,.enqueue ⟨0,0,0⟩,.enqueue ⟨1,0,0⟩,.enqueue ⟨2,0,0⟩,
    .start (0,0),.launch ⟨0,0,0⟩,.launch ⟨1,0,0⟩,.launch ⟨2,0,0⟩]
  let ended : List Label := [.finish ⟨0,0,0⟩,.finish ⟨1,0,0⟩,.finish ⟨2,0,0⟩,.start (0,0)]
  begun.map .act ++
    [.tick 3,.doNextEvent 5,.doNextEvent 1,.doNextEvent 3,.tick 3,.doNextEvent 14,.doNextEvent 12,
      .tick 3,.doNextEvent 13,.doNextEvent 15,.tick 3,.doNextEvent 0,.doNextEvent 2,
      .doNextEvent 4] ++ ended.map .act

theorem rounds_over_queues_chunk :
    ∃ s, Runs.Run ((protocol chunked).carry (chunked.cabling Training.onePacketBuffer))
        (Protocol.among fun label s => apart chunked label s ∧ fewer 1 label s)
        ((protocol chunked).initial (initial chunked)) s ∧
      (s.program.opened = [(0,0)] ∧ s.network.events.now = 12 ∧ s.network.events.pending = []) ∧
      Runs.Run (step chunked) (fun label s => apart chunked label s ∧ fewer 1 label s)
        (initial chunked) s.program ∧
      (protocol chunked).Mirrors (chunked.cabling Training.onePacketBuffer) 3 s := by
  have ends : (Runs.exec ((protocol chunked).carry (chunked.cabling Training.onePacketBuffer))
      (Protocol.among fun label s => apart chunked label s ∧ fewer 1 label s) carriedChunk
      ((protocol chunked).initial (initial chunked))).map
      (fun s => decide (s.program.opened = [(0,0)] ∧ s.network.events.now = 12 ∧
        s.network.events.pending = [])) = some true := by decide +kernel
  obtain ⟨s,run,view⟩ := Runs.exists_run_of_exec ends
  exact ⟨s,run,of_decide_eq_true view,rounds_over_queues chunked 1 Training.onePacketBuffer 3
    (fun _ => Nat.le_refl 3) (by decide) (by decide) s run⟩

end Rounds
end CloudSim
