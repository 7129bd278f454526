import CloudSim.FlowProgress
import CloudSim.Runs

/-! One allreduce over the tree of a placed job. Workers start in any order and at any time,
and packets arrive in any order. -/
namespace CloudSim.SingleAllreduce

inductive Label where
  | start (w : Nat)
  | deliver (fl : Flight)

/-- Every worker calls `allreduce` once on its tensor of the layer. -/
def step (cfg : Config) (tree : Tree) (l : Layer) : Label → Fabric → Option Fabric
  | .start w,f =>
    if w ∈ tree.workers ∧ f.begun (l.ref w) = 0 then
      some (f.launch cfg (l.ref w) (Worker.allreduceSize 0 (f.objs.tensor (l.ref w))))
    else none
  | .deliver fl,f => if fl ∈ f.inflight then some (f.deliver cfg fl) else none

/-- The packets that worker `w` has sent in a slot, and those it has received. -/
def sentBy (f : Fabric) (w s : Nat) : List Flight :=
  f.sent.filter fun fl => fl.hop.packet.id = w ∧ fl.hop.packet.slot = s

def gotBy (f : Fabric) (w s : Nat) : List Flight :=
  f.got.filter fun fl => fl.hop.dest = .worker w ∧ fl.hop.packet.slot = s

/-- What holds in every reachable state. -/
structure Correct (cfg : Config) (tree : Tree) (l : Layer) (gradSize : Nat) (f : Fabric) : Prop where
  noShadow : f.shadowed = []
  /-- A result exists only when every worker has sent its offset. -/
  complete : ∀ fl ∈ f.inflight ++ f.got, ∀ v, fl.hop.dest = .worker v → ∀ w ∈ tree.workers,
    ∃ g ∈ f.sent, g.hop.packet.id = w ∧ g.hop.packet.offset = fl.hop.packet.offset
  receivedOnce : ∀ w, ((f.got.filter fun fl => fl.hop.dest = .worker w).map
    fun fl => fl.hop.packet.offset).Nodup
  sentOnce : ∀ w, ((f.sent.filter fun fl => fl.hop.packet.id = w).map
    fun fl => fl.hop.packet.offset).Nodup
  offsets : ∀ fl ∈ f.sent, fl.hop.packet.offset < gradSize ∧
    ∃ k, fl.hop.packet.offset = k * cfg.numUpdates
  window : ∀ w ∈ tree.workers, ∀ s, (sentBy f w s).length ≤ (gotBy f w s).length + 1
  /-- Nothing under way and all started: every result has arrived everywhere. -/
  quiet : f.inflight = [] → (∀ w ∈ tree.workers, 0 < f.begun (l.ref w)) →
    ∀ w ∈ tree.workers, f.done (l.ref w) = 1 ∧
      ∀ k, k * cfg.numUpdates < gradSize →
        ∃ fl ∈ f.got, fl.hop.dest = .worker w ∧ fl.hop.packet.offset = k * cfg.numUpdates

/-- The job as the only traffic of its layer. -/
def traffic (cfg : Config) (tree : Tree) (l : Layer) (gradSize coreId : Nat) : Traffic :=
  ⟨cfg,fun _ => tree,fun _ => gradSize,{ m | m = l },coreId⟩

section run
variable {cfg : Config} {tree : Tree} {l : Layer} {gradSize coreId : Nat} {f : Fabric}

structure Inv (cfg : Config) (tree : Tree) (l : Layer) (gradSize coreId : Nat) (f : Fabric) :
    Prop where
  flow : ∃ lad, Flow (traffic cfg tree l gradSize coreId) True lad f
  once : ∀ w, f.begun (l.ref w) ≤ 1
  size : ∀ w ∈ tree.workers, (f.objs.tensor (l.ref w)).size = gradSize
  noShadow : f.shadowed = []
  uncleaned : ∀ x, f.cleaned x l = 0

theorem step_inv (sound : (traffic cfg tree l gradSize coreId).Sound) (label : Label)
    (f f' : Fabric) (inv : Inv cfg tree l gradSize coreId f) (_ : Runs.anyStep label f)
    (taken : step cfg tree l label f = some f') : Inv cfg tree l gradSize coreId f' := by
  obtain ⟨lad,flow⟩ := inv.flow
  cases label with
  | start w =>
    simp only [step] at taken
    split at taken
    case isFalse => cases taken
    rename_i may
    cases taken
    obtain ⟨worker,new⟩ := may
    have whole : Worker.allreduceSize 0 (f.objs.tensor (l.ref w)) = gradSize :=
      inv.size w worker
    have sender := flow.senders l rfl w worker
    have idle : f.begun (l.ref w) = f.done (l.ref w) := by
      have ended := sender.ended_le
      omega
    rw [whole]
    refine ⟨⟨_,flow.launch sound rfl worker idle⟩,fun v => ?_,fun v member => ?_,inv.noShadow,
      inv.uncleaned⟩
    · change Function.update f.begun (l.ref w) (f.begun (l.ref w) + 1) (l.ref v) ≤ 1
      rcases eq_or_ne (l.ref v) (l.ref w) with same | other
      · rw [same,Function.update_self,new]
      · rw [Function.update_of_ne other]; exact inv.once v
    · change (Function.update f.objs.tensor (l.ref w) _ (l.ref v)).size = gradSize
      rcases eq_or_ne (l.ref v) (l.ref w) with same | other
      · rw [same,Function.update_self]; exact inv.size w worker
      · rw [Function.update_of_ne other]; exact inv.size v member
  | deliver fl =>
    simp only [step] at taken
    split at taken
    case isFalse => cases taken
    rename_i member
    cases taken
    have layer : fl.layer = l := (flow.links.proper fl member).1
    obtain ⟨v,_,first⟩ := flow.turn_lt member
    have turn : fl.turn = 0 := by
      have once := inv.once v
      rw [layer] at first
      omega
    obtain ⟨next,kept⟩ := flow.deliver sound member fun _ _ => by rw [turn]; exact Nat.zero_le _
    have same : (f.deliver cfg fl).begun = f.begun ∧ (f.deliver cfg fl).objs = f.objs ∧
        (f.deliver cfg fl).cleaned = f.cleaned := by
      unfold Fabric.deliver
      split <;> exact ⟨rfl,rfl,rfl⟩
    obtain ⟨begun,objs,cleaned⟩ := same
    exact ⟨next,by rw [begun]; exact inv.once,by rw [objs]; exact inv.size,
      (kept trivial).trans inv.noShadow,by rw [cleaned]; exact inv.uncleaned⟩

/-- A list whose classes map to distinct values does, when a value tells its class. -/
theorem nodup_of_classes [DecidableEq C] {list : List A} {value : A → B} (key : A → C)
    (tells : ∀ a ∈ list, ∀ b ∈ list, value a = value b → key a = key b)
    (distinct : ∀ c, ((list.filter fun a => key a = c).map value).Nodup) :
    (list.map value).Nodup := by
  induction list with
  | nil => exact List.nodup_nil
  | cons head rest ih =>
    refine List.nodup_cons.mpr ⟨fun again => ?_,ih (fun a first b second =>
      tells a (List.mem_cons_of_mem _ first) b (List.mem_cons_of_mem _ second)) fun c => ?_⟩
    · obtain ⟨b,member,same⟩ := List.mem_map.mp again
      have keys := tells b (List.mem_cons_of_mem _ member) head List.mem_cons_self same
      have here := distinct (key head)
      rw [List.filter_cons_of_pos (by simp),List.map_cons,List.nodup_cons] at here
      exact here.1 (List.mem_map.mpr ⟨b,List.mem_filter.mpr ⟨member,by simpa using keys⟩,same⟩)
    · have sub : (rest.filter fun a => key a = c).Sublist
          ((head :: rest).filter fun a => key a = c) := (List.sublist_cons_self head rest).filter _
      exact (sub.map value).nodup (distinct c)

section facts
variable {lad : Ladders} (sound : (traffic cfg tree l gradSize coreId).Sound)
  (flow : Flow (traffic cfg tree l gradSize coreId) True lad f)
include flow

theorem sent_place (member : fl ∈ f.sent) : ∃ s < cfg.numSlots, ∃ w ∈ tree.workers,
    fl.place = ⟨l,s,.up w⟩ ∧ fl.hop.packet.slot = s ∧ fl.hop.packet.id = w := by
  obtain ⟨⟨layer,slot,valid⟩,w,link⟩ := flow.sentProper fl member
  rw [link] at valid
  refine ⟨_,slot,w,valid,?_,rfl,Flight.id_of_link link⟩
  rw [← link,show l = fl.place.layer from layer.symm]

theorem got_place (member : fl ∈ f.got) : ∃ s < cfg.numSlots, ∃ w ∈ tree.workers,
    fl.place = ⟨l,s,.down w⟩ ∧ fl.hop.packet.slot = s ∧ fl.hop.dest = .worker w := by
  obtain ⟨⟨layer,slot,valid⟩,w,link⟩ := flow.gotProper fl member
  rw [link] at valid
  refine ⟨_,slot,w,valid,?_,rfl,Flight.link_down.mp link⟩
  rw [← link,show l = fl.place.layer from layer.symm]

theorem sentBy_length (slot : s < cfg.numSlots) (worker : w ∈ tree.workers) :
    (sentBy f w s).length = (lad l s).sent w := by
  rw [← (flow.sentLog l rfl s slot w worker).length,sentBy]
  congr 1
  apply List.filter_congr
  intro fl member
  obtain ⟨i,_,v,_,place,lane,name⟩ := sent_place flow member
  simp [place,lane,name,and_comm]

theorem gotBy_length (slot : s < cfg.numSlots) (worker : w ∈ tree.workers) :
    (gotBy f w s).length = (lad l s).got w := by
  rw [← (flow.gotLog l rfl s slot w worker).length,gotBy]
  congr 1
  apply List.filter_congr
  intro fl member
  obtain ⟨i,_,v,_,place,lane,dest⟩ := got_place flow member
  simp [place,lane,dest,and_comm]

end facts

/-- The history of one worker repeats no offset within an allreduce. -/
theorem offsets_once {tr : Traffic} (sound : tr.Sound) {log : List Flight} {link : Link}
    {n : Nat → Nat} (logged : ∀ s < tr.cfg.numSlots, Logged tr ⟨l,s,link⟩ (n s) log)
    (few : ∀ s < tr.cfg.numSlots, n s ≤ tr.rounds l s) {select : Flight → Bool}
    (selected : ∀ fl ∈ log, select fl = true ↔
      ∃ s < tr.cfg.numSlots, fl.place = ⟨l,s,link⟩) :
    ((log.filter select).map fun fl => fl.hop.packet.offset).Nodup := by
  have item (s q i r : Nat) (same : tr.offset l s q = tr.offset l i r) :
      Lanes.item (tr.pkts l) tr.cfg.numSlots s q = Lanes.item (tr.pkts l) tr.cfg.numSlots i r :=
    Nat.eq_of_mul_eq_mul_right sound.updates same
  refine nodup_of_classes (fun fl => fl.hop.packet.slot) (fun a first b second same => ?_)
    fun c => ?_
  · obtain ⟨member,chosen⟩ := List.mem_filter.mp first
    obtain ⟨other,also⟩ := List.mem_filter.mp second
    obtain ⟨s,slot,place⟩ := (selected a member).mp chosen
    obtain ⟨i,lane,site⟩ := (selected b other).mp also
    obtain ⟨q,_,_,offset⟩ := (logged s slot).mem member place
    obtain ⟨r,_,_,start⟩ := (logged i lane).mem other site
    have lanes := congrArg (· % tr.cfg.numSlots) (item s q i r (offset ▸ start ▸ same))
    rw [Lanes.item_mod slot,Lanes.item_mod lane] at lanes
    calc a.hop.packet.slot = s := congrArg Place.slot place
      _ = i := lanes
      _ = b.hop.packet.slot := (congrArg Place.slot site).symm
  · rw [List.filter_filter]
    rcases Nat.lt_or_ge c tr.cfg.numSlots with slot | past
    · have same : log.filter (fun fl => decide (fl.hop.packet.slot = c) && select fl) =
          log.filter fun fl => fl.place = ⟨l,c,link⟩ := by
        apply List.filter_congr
        intro fl member
        have chosen := selected fl member
        rw [Bool.eq_iff_iff,Bool.and_eq_true,decide_eq_true_iff,decide_eq_true_iff,chosen]
        constructor
        · rintro ⟨here,s,_,place⟩
          rw [← here,show fl.hop.packet.slot = s from congrArg Place.slot place]
          exact place
        · intro place
          exact ⟨congrArg Place.slot place,c,slot,place⟩
      have offsets := congrArg (List.map Prod.snd) (logged c slot)
      rw [List.map_map,List.map_map] at offsets
      rw [same]
      refine (congrArg List.Nodup offsets).mpr (List.nodup_range.map_on fun q first r second same => ?_)
      have round := congrArg (· / tr.cfg.numSlots) (item c q c r same)
      rw [Lanes.item_div slot,Lanes.item_div slot] at round
      change q % tr.rounds l c = r % tr.rounds l c at round
      have below := few c slot
      rwa [Nat.mod_eq_of_lt ((List.mem_range.mp first).trans_le below),
        Nat.mod_eq_of_lt ((List.mem_range.mp second).trans_le below)] at round
    · have none : log.filter (fun fl => decide (fl.hop.packet.slot = c) && select fl) = [] := by
        refine List.filter_eq_nil_iff.mpr fun fl member both => ?_
        rw [Bool.and_eq_true,decide_eq_true_iff] at both
        obtain ⟨s,slot,place⟩ := (selected fl member).mp both.2
        have here : fl.hop.packet.slot = s := congrArg Place.slot place
        omega
      rw [none]
      exact List.nodup_nil

section correct
variable (inv : Inv cfg tree l gradSize coreId f)
include inv

theorem complete (member : fl ∈ f.inflight ++ f.got) (dest : fl.hop.dest = .worker v)
    (worker : w ∈ tree.workers) :
    ∃ g ∈ f.sent, g.hop.packet.id = w ∧ g.hop.packet.offset = fl.hop.packet.offset := by
  obtain ⟨lad,flow⟩ := inv.flow
  have numbered : ∃ s < cfg.numSlots, ∃ q < (lad l s).sent w,
      fl.hop.packet.offset = (traffic cfg tree l gradSize coreId).offset l s q := by
    rcases List.mem_append.mp member with under | arrived
    · have proper := flow.links.proper fl under
      have place : fl.place = ⟨l,fl.hop.packet.slot,.down v⟩ := by
        rw [← Flight.link_down.mpr dest,show l = fl.place.layer from proper.1.symm]
        rfl
      obtain ⟨owner,landing,carried⟩ := flow.landing under place
      have ordered := flow.ordered l rfl _ landing.slot
      have relayed := ordered.relayed_le _ (tree.torOf_mem landing.worker)
      have above := tree.torOf_mem worker
      have reduced := ordered.reduced_le _ above
      have joined := ordered.joined_le _ above
      have merged := ordered.merged_le w worker
      have counted := ordered.counted_le w worker
      refine ⟨_,landing.slot,_,?_,by rw [carried]; rfl⟩
      exact Nat.lt_of_lt_of_le landing.pending
        (relayed.trans (reduced.trans (joined.trans (merged.trans counted))))
    · obtain ⟨s,slot,u,other,place,_,_⟩ := got_place flow arrived
      obtain ⟨q,below,_,offset⟩ := (flow.gotLog l rfl s slot u other).mem arrived place
      exact ⟨s,slot,q,Nat.lt_of_lt_of_le below
        ((flow.ordered l rfl s slot).got_le_sent other worker),offset⟩
  obtain ⟨s,slot,q,below,offset⟩ := numbered
  obtain ⟨g,found,place,_,start⟩ := (flow.sentLog l rfl s slot w worker).exists_mem below
  exact ⟨g,found,Flight.id_of_link (congrArg Place.link place),start.trans offset.symm⟩

omit inv in
/-- With no packet under way every slot of every worker has run to its end. -/
theorem ended (quiet : f.inflight = []) {lad : Ladders}
    (flow : Flow (traffic cfg tree l gradSize coreId) True lad f)
    (started : ∀ w ∈ tree.workers, 0 < f.begun (l.ref w)) (slot : s < cfg.numSlots)
    (worker : w ∈ tree.workers) :
    (traffic cfg tree l gradSize coreId).rounds l s ≤ (lad l s).got w := by
  have reached := flow.reached rfl slot quiet started worker
  rwa [Nat.one_mul] at reached

section slots
variable {lad : Ladders} (flow : Flow (traffic cfg tree l gradSize coreId) True lad f)
include flow

theorem sent_few (worker : w ∈ tree.workers) (slot : s < cfg.numSlots) :
    (lad l s).sent w ≤ (traffic cfg tree l gradSize coreId).rounds l s := by
  have once := Nat.mul_le_mul_right ((traffic cfg tree l gradSize coreId).rounds l s) (inv.once w)
  rw [Nat.one_mul] at once
  have sent : (lad l s).sent w = min _ _ := (flow.senders l rfl w worker).sent s slot
  rw [sent]
  exact (Nat.min_le_right _ _).trans once

theorem got_few (worker : w ∈ tree.workers) (slot : s < cfg.numSlots) :
    (lad l s).got w ≤ (traffic cfg tree l gradSize coreId).rounds l s :=
  ((flow.ordered l rfl s slot).got_le_sent worker worker).trans (sent_few inv flow worker slot)

theorem received_once (sound : (traffic cfg tree l gradSize coreId).Sound) (w : Nat) :
    ((f.got.filter fun fl => fl.hop.dest = .worker w).map
      fun fl => fl.hop.packet.offset).Nodup := by
  by_cases worker : w ∈ tree.workers
  · refine offsets_once sound (fun s slot => flow.gotLog l rfl s slot w worker)
      (fun s slot => got_few inv flow worker slot) fun fl member => ?_
    rw [decide_eq_true_iff]
    constructor
    · intro dest
      obtain ⟨s,slot,v,_,place,_,landed⟩ := got_place flow member
      obtain rfl : v = w := Node.worker.inj (landed.symm.trans dest)
      exact ⟨s,slot,place⟩
    · rintro ⟨s,_,place⟩
      exact Flight.link_down.mp (congrArg Place.link place)
  · have none : (f.got.filter fun fl => fl.hop.dest = .worker w) = [] := by
      refine List.filter_eq_nil_iff.mpr fun fl member dest => worker ?_
      obtain ⟨_,_,v,other,_,_,landed⟩ := got_place flow member
      have same : v = w := Node.worker.inj (landed.symm.trans (of_decide_eq_true dest))
      exact same ▸ other
    rw [none]
    exact List.nodup_nil

theorem sent_once (sound : (traffic cfg tree l gradSize coreId).Sound) (w : Nat) :
    ((f.sent.filter fun fl => fl.hop.packet.id = w).map
      fun fl => fl.hop.packet.offset).Nodup := by
  by_cases worker : w ∈ tree.workers
  · refine offsets_once sound (fun s slot => flow.sentLog l rfl s slot w worker)
      (fun s slot => sent_few inv flow worker slot) fun fl member => ?_
    rw [decide_eq_true_iff]
    constructor
    · rintro rfl
      obtain ⟨s,slot,v,_,place,_,name⟩ := sent_place flow member
      exact ⟨s,slot,name ▸ place⟩
    · rintro ⟨s,_,place⟩
      exact Flight.id_of_link (congrArg Place.link place)
  · have none : (f.sent.filter fun fl => fl.hop.packet.id = w) = [] := by
      refine List.filter_eq_nil_iff.mpr fun fl member name => worker ?_
      obtain ⟨_,_,v,other,_,_,named⟩ := sent_place flow member
      have same : v = w := named.symm.trans (of_decide_eq_true name)
      exact same ▸ other
    rw [none]
    exact List.nodup_nil

omit inv in
theorem one_ahead (worker : w ∈ tree.workers) (s : Nat) :
    (sentBy f w s).length ≤ (gotBy f w s).length + 1 := by
  rcases Nat.lt_or_ge s cfg.numSlots with slot | past
  · rw [sentBy_length flow slot worker,gotBy_length flow slot worker]
    exact (flow.ordered l rfl s slot).window w worker
  · have none : sentBy f w s = [] := by
      refine List.filter_eq_nil_iff.mpr fun fl member both => ?_
      obtain ⟨i,lane,_,_,_,here,_⟩ := sent_place flow member
      have there := (of_decide_eq_true both).2
      omega
    rw [none]
    exact Nat.zero_le _

theorem done_once (quiet : f.inflight = []) (started : ∀ w ∈ tree.workers, 0 < f.begun (l.ref w))
    (worker : w ∈ tree.workers) : f.done (l.ref w) = 1 := by
  have sender := flow.senders l rfl w worker
  have once := inv.once w
  have began := started w worker
  have order := sender.ended_le
  by_contra unfinished
  obtain ⟨s,slot,behind⟩ := sender.opened (by omega)
  rw [show f.begun (l.ref w) = 1 by omega,Nat.one_mul] at behind
  exact absurd (ended quiet flow started slot worker) (Nat.not_le.mpr behind)

omit inv in
theorem all_received (sound : (traffic cfg tree l gradSize coreId).Sound) (quiet : f.inflight = [])
    (started : ∀ w ∈ tree.workers, 0 < f.begun (l.ref w)) (worker : w ∈ tree.workers) {k : Nat}
    (within : k * cfg.numUpdates < gradSize) :
    ∃ fl ∈ f.got, fl.hop.dest = .worker w ∧ fl.hop.packet.offset = k * cfg.numUpdates := by
  have inside : k < (traffic cfg tree l gradSize coreId).pkts l :=
    (Config.lt_pkts sound.updates).mpr within
  obtain ⟨slot,round⟩ := Traffic.round_lt sound inside
  obtain ⟨fl,found,place,_,offset⟩ := (flow.gotLog l rfl _ slot w worker).exists_mem
    (Nat.lt_of_lt_of_le round (ended quiet flow started slot worker))
  refine ⟨fl,found,Flight.link_down.mp (congrArg Place.link place),?_⟩
  have index : Lanes.item ((traffic cfg tree l gradSize coreId).pkts l) cfg.numSlots
      (k % cfg.numSlots) (k / cfg.numSlots) = k := by
    have first : k / cfg.numSlots % Lanes.rounds ((traffic cfg tree l gradSize coreId).pkts l)
        cfg.numSlots (k % cfg.numSlots) = k / cfg.numSlots := Nat.mod_eq_of_lt round
    rw [Lanes.item,first,Nat.mul_comm,Nat.mod_add_div]
  rw [offset]
  exact congrArg (· * cfg.numUpdates) index

end slots

theorem correct (sound : (traffic cfg tree l gradSize coreId).Sound) :
    Correct cfg tree l gradSize f := by
  obtain ⟨lad,flow⟩ := inv.flow
  refine
    { noShadow := inv.noShadow
      complete := fun fl member v dest w worker => complete inv member dest worker
      receivedOnce := received_once inv flow sound
      sentOnce := sent_once inv flow sound
      offsets := fun fl member => ?_
      window := fun w worker s => one_ahead flow worker s
      quiet := fun quiet started w worker => ⟨done_once inv flow quiet started worker,
        fun k within => all_received flow sound quiet started worker within⟩ }
  obtain ⟨s,slot,w,worker,place,_,_⟩ := sent_place flow member
  obtain ⟨q,below,_,offset⟩ := (flow.sentLog l rfl s slot w worker).mem member place
  have used := Nat.zero_lt_of_lt (Nat.lt_of_lt_of_le below (sent_few inv flow worker slot))
  have inside := Lanes.item_lt slot used q
  rw [offset]
  exact ⟨(Config.lt_pkts sound.updates).mp inside,_,rfl⟩

end correct
end run

/-- A job is placed, and no switch or worker holds an entry for its layer `l`. From there every
order of starts and deliveries reduces the layer correctly. -/
theorem single_allreduce_correct (cfg : Config) (topo : HierarchicalTopology) (tree : Tree)
    (l : Layer) (gradSize : Nat) (net : Network) (objs : Objects) (f : Fabric)
    (slots : 0 < cfg.numSlots) (updates : 0 < cfg.numUpdates) (positive : 0 < gradSize)
    (bound : gradSize + cfg.numUpdates * cfg.numSlots < 2^32)
    (several : 2 ≤ tree.workers.length) (torOf : tree.torOf = topo.hostToRSwitch)
    (existing : ∀ w ∈ tree.workers, w < topo.ports * (topo.ports - 1))
    (built : HierarchicalTopology.Built topo net)
    (unplaced : HierarchicalTopology.Unplaced l.1 net)
    (fresh : Flow.Fresh (traffic cfg tree l gradSize topo.ports) net)
    (allocated : objs.numWorkersAllocated l.1 = tree.workers.length)
    (size : ∀ w ∈ tree.workers, (objs.tensor (l.ref w)).size = gradSize)
    (run : Runs.Run (step cfg tree l) Runs.anyStep
      { net := topo.setSwitchNumUpdates l.1 tree.workers tree.tors net, objs := objs } f) :
    Correct cfg tree l gradSize f := by
  have few := topo.wids_length_lt tree.workersDistinct existing
  have wired := topo.setSwitchNumUpdates_wired tree torOf built unplaced (by omega)
  have records := (topo.setSwitchNumUpdates_edits l.1 tree.workers tree.tors net).records
  generalize topo.setSwitchNumUpdates l.1 tree.workers tree.tors net = placed at *
  have sound : (traffic cfg tree l gradSize placed.core.id).Sound :=
    { slots := slots, updates := updates, several := fun _ _ => several, few := fun _ _ => few,
      positive := fun _ _ => positive,
      noWrap := fun _ _ => Config.noWrap_of_bound updates slots bound,
      apart := fun a first b second _ => (show a = l from first).trans (show b = l from second).symm }
  have kept := fresh.of_records records
  have initial := Flow.initial sound True objs
    (fun m (same : m = l) => same ▸ wired) rfl (fun m (same : m = l) => same ▸ allocated)
    ⟨kept.counts,kept.seen,kept.received⟩
  have inv : Inv cfg tree l gradSize placed.core.id f :=
    run.invariant (step_inv sound) ⟨⟨_,initial⟩,fun _ => Nat.zero_le 1,size,rfl,fun _ => rfl⟩
  exact correct inv sound

/-- Workers 0 and 1 below one ToR and worker 2 below another. -/
def twoTors : Tree where
  workers := [0,1,2]
  tors := [0,1]
  torOf w := w / 2
  workersDistinct := by decide
  torsDistinct := by decide
  involved t := by
    constructor
    · intro member
      rcases List.mem_pair.mp member with rfl | rfl
      · exact ⟨0,by decide,rfl⟩
      · exact ⟨2,by decide,rfl⟩
    · rintro ⟨w,member,rfl⟩
      exact (by decide : ∀ w ∈ [0,1,2], w / 2 ∈ [0,1]) w member

def oneSlot : Config := ⟨1,2,0,fun _ _ => 7⟩

def threePorts : HierarchicalTopology := ⟨3,Nat.le_succ 2,(by decide : 6 < 2^31)⟩

/-- One round of the slot. The core's last contribution and all replies carry the tensor of
worker 1. -/
def round (q : Nat) : List Label :=
  let owner (w : Nat) : Nat := if q = 0 then w else 1
  [(Link.up 2,owner 2),(.rise 1,owner 2),(.up 0,owner 0),(.up 1,1),(.rise 0,1),(.fall 0,1),
    (.fall 1,1),(.down 0,1),(.down 1,1),(.down 2,1)].map fun (k,owner) =>
    .deliver ((traffic oneSlot twoTors (0,0) 3 3).flight ⟨(0,0),0,k⟩ q owner)

def threeWorkers : Objects := ⟨fun _ => ⟨3,0,0,0,0⟩,fun _ => 3,fun _ => 1⟩

/-- Three workers reduce two packets each over two ToRs and the core. -/
theorem single_allreduce_correct_two_tors :
    ∃ f, Runs.Run (step oneSlot twoTors (0,0)) Runs.anyStep
        { net := threePorts.setSwitchNumUpdates 0 [0,1,2] [0,1] threePorts.initNetwork,
          objs := threeWorkers } f ∧
      f.inflight = [] ∧ f.got.length = 6 ∧ Correct oneSlot twoTors (0,0) 3 f := by
  have ends : (Runs.exec (step oneSlot twoTors (0,0)) Runs.anyStep
      ([.start 0,.start 1,.start 2] ++ round 0 ++ round 1)
      { net := threePorts.setSwitchNumUpdates 0 [0,1,2] [0,1] threePorts.initNetwork,
        objs := threeWorkers }).map (fun f => (f.inflight,f.got.length)) = some ([],6) := by
    decide +kernel
  obtain ⟨f,run,view⟩ := Runs.exists_run_of_exec ends
  obtain ⟨quiet,got⟩ := Prod.mk.inj view
  refine ⟨f,run,quiet,got,single_allreduce_correct oneSlot threePorts twoTors (0,0) 3
    threePorts.initNetwork threeWorkers f (by decide) (by decide) (by decide) (by decide)
    (by decide) rfl (by decide) (threePorts.initNetwork_built) (threePorts.initNetwork_unplaced 0)
    ⟨fun _ _ x _ => ?_,fun _ _ x _ => ?_,fun _ _ _ => rfl⟩ rfl (by decide) run⟩
  · cases x <;> rfl
  · cases x <;> rfl

end CloudSim.SingleAllreduce
