import CloudSim.FlowWorker

/-! Every operation of a fabric keeps the flow: the start of an allreduce, a delivery, a
clean-up, and what leaves packets and entries alone. -/
namespace CloudSim.Flow
variable {tr : Traffic} {exact : Prop} {lad : Ladders} {f : Fabric}

/-- Worker `w` has sent the first packet of every slot of layer `l`. -/
def launched (tr : Traffic) (lad : Ladders) (l : Layer) (w : Nat) : Ladders :=
  fun m i => if m = l ∧ i < tr.pkts l then (lad m i).send w else lad m i

def firstPlaces (tr : Traffic) (l : Layer) (w : Nat) : List Place :=
  (List.range (min tr.cfg.numSlots (tr.pkts l))).map fun s => ⟨l,s,.up w⟩

section launch
variable (l : Layer) (w : Nat)

theorem firstPlaces_distinct : (firstPlaces tr l w).Nodup :=
  List.nodup_range.map fun _ _ same => congrArg Place.slot same

theorem mem_firstPlaces : ⟨m,i,k⟩ ∈ firstPlaces tr l w ↔
    m = l ∧ (i < tr.cfg.numSlots ∧ i < tr.pkts l) ∧ k = .up w := by
  simp only [firstPlaces,List.mem_map,List.mem_range,Nat.lt_min,Place.mk.injEq]
  constructor
  · rintro ⟨s,inside,rfl,rfl,rfl⟩
    exact ⟨rfl,inside,rfl⟩
  · rintro ⟨rfl,inside,rfl⟩
    exact ⟨i,inside,rfl,rfl,rfl⟩

theorem launched_low : (launched tr lad l w).low = lad.low := by
  funext p
  obtain ⟨m,i,k⟩ := p
  simp only [Ladders.low,launched]
  split
  · cases k <;> rfl
  · rfl

theorem launched_high (slot : i < tr.cfg.numSlots) (k : Link) :
    (launched tr lad l w).high tr ⟨m,i,k⟩ =
      if ⟨m,i,k⟩ ∈ firstPlaces tr l w then lad.high tr ⟨m,i,k⟩ + 1 else lad.high tr ⟨m,i,k⟩ := by
  simp only [Ladders.high,launched,mem_firstPlaces]
  by_cases here : m = l ∧ i < tr.pkts l
  · rw [if_pos here]
    cases k with
    | up v =>
      rcases eq_or_ne v w with rfl | other
      · simp [Link.high,Ladder.send,here,slot]
      · simp [Link.high,Ladder.send,other]
    | rise t => simp [Link.high,Ladder.send]
    | fall t => simp [Link.high,Ladder.send]
    | down v => simp [Link.high,Ladder.send]
  · rw [if_neg here,if_neg fun both => here ⟨both.1,both.2.1.2⟩]

theorem launched_kept (m : Layer) (i : Nat) : (launched tr lad l w m i).merged = (lad m i).merged ∧
    (launched tr lad l w m i).relayed = (lad m i).relayed ∧
    (launched tr lad l w m i).got = (lad m i).got := by
  simp only [launched]
  split <;> exact ⟨rfl,rfl,rfl⟩

theorem launched_station (m : Layer) (i : Nat) (x : Node) :
    (launched tr lad l w m i).cnt x = (lad m i).cnt x ∧
      (launched tr lad l w m i).own x = (lad m i).own x := by
  simp only [launched]
  split
  · cases x <;> exact ⟨rfl,rfl⟩
  · exact ⟨rfl,rfl⟩

theorem launched_sent (m : Layer) (i v : Nat) : (launched tr lad l w m i).sent v =
    if m = l ∧ i < tr.pkts l ∧ v = w then (lad m i).sent v + 1 else (lad m i).sent v := by
  simp only [launched]
  by_cases here : m = l ∧ i < tr.pkts l
  · rw [if_pos here]
    rcases eq_or_ne v w with rfl | other
    · rw [if_pos ⟨here.1,here.2,rfl⟩]; exact Function.update_self _ _ _
    · rw [if_neg fun all => other all.2.2]; exact Function.update_of_ne other _ _
  · rw [if_neg here,if_neg fun all => here ⟨all.1,all.2.1⟩]

end launch

theorem first_flights (sound : tr.Sound) (flow : Flow tr exact lad f) (active : l ∈ tr.active)
    (worker : w ∈ (tr.tree l.1).workers) (idle : f.begun (l.ref w) = f.done (l.ref w))
    (objs : Objects) (allocated : objs.numWorkersAllocated = f.objs.numWorkersAllocated) :
    Fabric.fly (f.begun (l.ref w))
        ((f.net.worker w).initialPackets tr.cfg objs (tr.size l) (l.ref w)) =
      (firstPlaces tr l w).map fun p => tr.flight p (lad.low p) w := by
  have noWrap := sound.noWrap l active
  have wired := flow.wired l active
  have sender := flow.senders l active w worker
  rw [← idle] at sender
  have allocated : objs.numWorkersAllocated (l.ref w).job = (tr.tree l.1).workers.length := by
    rw [allocated]; exact flow.allocated l active
  rw [Config.initialPackets_eq sound.updates noWrap,Fabric.fly,firstPlaces,List.map_map,
    List.map_map]
  apply List.map_congr_left
  intro s member
  obtain ⟨slot,used⟩ : s < tr.cfg.numSlots ∧ s < tr.pkts l :=
    Nat.lt_min.mp (List.mem_range.mp member)
  have rounds : 0 < tr.rounds l s := (Lanes.rounds_pos slot).mpr used
  obtain ⟨(level : (lad l s).sent w = (lad l s).got w),(base : (lad l s).got w = _)⟩ :=
    sender.idle slot
  have ordered := flow.ordered l active s slot
  have counted : lad.low ⟨l,s,.up w⟩ = f.begun (l.ref w) * tr.rounds l s + 0 := by
    have below := ordered.counted_le w worker
    have above := ordered.got_le_counted (show w ∈ (tr.tree l.1).shape.leaves from worker) worker
    change (lad l s).counted w = _
    omega
  obtain ⟨mod,div⟩ : lad.low ⟨l,s,.up w⟩ % tr.rounds l s = 0 ∧
      lad.low ⟨l,s,.up w⟩ / tr.rounds l s = f.begun (l.ref w) := counted ▸ Lanes.of_pass rounds
  have ver : tr.ver l s (lad.low ⟨l,s,.up w⟩) = 0 := by rw [Traffic.ver,mod]
  have turn : tr.turn l s (lad.low ⟨l,s,.up w⟩) = f.begun (l.ref w) := div
  have offset : tr.offset l s (lad.low ⟨l,s,.up w⟩) = s * tr.cfg.numUpdates := by
    rw [Traffic.offset,Lanes.item,show Lanes.rounds _ _ _ = tr.rounds l s from rfl,mod,
      Nat.zero_mul,Nat.add_zero]
  simp only [Function.comp_apply,Worker.sendPacket,wired.workerId w worker,
    wired.workerTor w worker,allocated,u32_of_lt noWrap.fits,Traffic.flight,ver,turn,offset]
  rfl

theorem flights_at (low : Place → Nat) {places : List Place} (distinct : places.Nodup)
    (inside : p ∈ places) (owner : Nat) :
    ((places.map fun p => tr.flight p (low p) owner).filter fun fl => fl.place = p) =
      [tr.flight p (low p) owner] := by
  rw [List.filter_map]
  have same : places.filter ((fun fl : Flight => decide (fl.place = p)) ∘
      fun p => tr.flight p (low p) owner) = places.filter (· = p) := by
    apply List.filter_congr
    intro q _
    simp [tr.flight_place]
  rw [same,List.filter_eq,List.count_eq_one_of_mem distinct inside]
  rfl

section launch
variable (flow : Flow tr exact lad f) (active : l ∈ tr.active)
  (worker : w ∈ (tr.tree l.1).workers) (idle : f.begun (l.ref w) = f.done (l.ref w))
include flow active worker idle

theorem launch_level (slot : s < tr.cfg.numSlots) :
    (lad l s).sent w = (lad l s).got w ∧ (lad l s).counted w = (lad l s).got w := by
  have sender := flow.senders l active w worker
  rw [idle] at sender
  have ordered := flow.ordered l active s slot
  have level : (lad l s).sent w = (lad l s).got w := (sender.idle slot).1
  have below := ordered.counted_le w worker
  have above := ordered.got_le_counted (show w ∈ (tr.tree l.1).shape.leaves from worker) worker
  omega

theorem launch_links :
    Links tr exact (Function.update f.begun (l.ref w) (f.begun (l.ref w) + 1))
      (launched tr lad l w).low ((launched tr lad l w).high tr)
      (f.inflight ++ (firstPlaces tr l w).map fun p => tr.flight p (lad.low p) w) := by
  have grows (r : TensorRef) :
      f.begun r ≤ Function.update f.begun (l.ref w) (f.begun (l.ref w) + 1) r := by
    rcases eq_or_ne r (l.ref w) with rfl | other
    · rw [Function.update_self]; exact Nat.le_succ _
    · rw [Function.update_of_ne other]
  rw [launched_low]
  refine (flow.links.more_begun grows).send _ (firstPlaces_distinct l w) ?_ ?_ ?_ ?_ ?_
  all_goals rintro ⟨m,i,k⟩
  · intro member
    obtain ⟨rfl,inside,rfl⟩ := (mem_firstPlaces l w).mp member
    exact ⟨active,inside.1,worker⟩
  · intro member
    obtain ⟨rfl,inside,rfl⟩ := (mem_firstPlaces l w).mp member
    obtain ⟨sent,counted⟩ := launch_level flow active worker idle inside.1
    exact counted.trans sent.symm
  · intro member
    rw [launched_high l w ((mem_firstPlaces l w).mp member).2.1.1,if_pos member]
  · intro proper absent
    rw [launched_high l w proper.2.1,if_neg absent]
  · intro member
    obtain ⟨rfl,_⟩ := (mem_firstPlaces l w).mp member
    refine ⟨worker,?_⟩
    rw [Function.update_self]
    exact Nat.succ_pos _

/-- The worker has sent its window of the next allreduce, the others are where they were. -/
theorem launch_sender (sound : tr.Sound) (also : m ∈ tr.active)
    (member : v ∈ (tr.tree m.1).workers) :
    Sender tr m (Function.update f.begun (l.ref w) (f.begun (l.ref w) + 1) (m.ref v))
      (f.done (m.ref v)) (fun s => (launched tr lad l w m s).sent v)
      (fun s => (launched tr lad l w m s).got v) ((f.net.worker v).received (m.cut tr.cfg)) := by
  have before := flow.senders m also v member
  have got : (fun s => (launched tr lad l w m s).got v) = fun s => (lad m s).got v := by
    funext s
    rw [(launched_kept l w m s).2.2]
  rw [got]
  by_cases own : m = l ∧ v = w
  · obtain ⟨rfl,rfl⟩ := own
    rw [idle] at before
    have some : 0 < tr.pkts m := by
      rw [Traffic.pkts,Config.lt_pkts sound.updates,Nat.zero_mul]
      exact sound.positive m active
    have sent : (fun s => (launched tr lad m v m s).sent v) =
        fun s => if s < tr.pkts m then (lad m s).sent v + 1 else (lad m s).sent v := by
      funext s
      rw [launched_sent]
      by_cases used : s < tr.pkts m <;> simp [used]
    rw [sent,Function.update_self,idle]
    exact before.launch sound some
  · have other : m.ref v ≠ l.ref w := fun same => own (Layer.ref_inj same)
    have sent : (fun s => (launched tr lad l w m s).sent v) = fun s => (lad m s).sent v := by
      funext s
      rw [launched_sent,if_neg fun all => own ⟨all.1,all.2.2⟩]
    rw [sent,Function.update_of_ne other]
    exact before

/-- The packets of the launch continue the history of its worker and of no other. -/
theorem launch_sentLog (also : m ∈ tr.active) (slot : i < tr.cfg.numSlots)
    (member : v ∈ (tr.tree m.1).workers) :
    Logged tr ⟨m,i,.up v⟩ ((launched tr lad l w m i).sent v)
      (f.sent ++ (firstPlaces tr l w).map fun p => tr.flight p (lad.low p) w) := by
  have before := flow.sentLog m also i slot v member
  rw [launched_sent]
  split
  · rename_i here
    obtain ⟨rfl,used,rfl⟩ := here
    have inside : (⟨m,i,.up v⟩ : Place) ∈ firstPlaces tr m v :=
      (mem_firstPlaces m v).mpr ⟨rfl,⟨slot,used⟩,rfl⟩
    obtain ⟨level,counted⟩ := launch_level flow active worker idle slot
    have low : lad.low ⟨m,i,.up v⟩ = (lad m i).sent v := counted.trans level.symm
    refine before.append_one (show _ = [tr.flight ⟨m,i,.up v⟩ ((lad m i).sent v) v] from ?_)
    rw [flights_at lad.low (firstPlaces_distinct m v) inside v,low]
  · rename_i elsewhere
    refine before.append_other fun fl new same => elsewhere ?_
    obtain ⟨⟨n,j,k⟩,inside,rfl⟩ := List.mem_map.mp new
    rw [tr.flight_place] at same
    obtain ⟨rfl,rfl,rfl⟩ := Place.mk.inj same
    obtain ⟨layer,bounds,link⟩ := (mem_firstPlaces l w).mp inside
    exact ⟨layer,bounds.2,Link.up.inj link⟩

end launch

theorem launch_expected (sound : tr.Sound) (flow : Flow tr exact lad f) (active : l ∈ tr.active)
    (also : m ∈ tr.active) (member : v ∈ (tr.tree m.1).workers)
    (begun : 0 < Function.update f.begun (l.ref w) (f.begun (l.ref w) + 1) (m.ref v)) :
    ((f.launch tr.cfg (l.ref w) (tr.size l)).objs.tensor (m.ref v)).numPktsExpected =
      tr.pkts m := by
  change (Function.update f.objs.tensor (l.ref w) _ (m.ref v)).numPktsExpected = _
  by_cases own : m.ref v = l.ref w
  · rw [own,Function.update_self,(Layer.ref_inj own).1]
    exact Config.pktsExpected_eq sound.updates (sound.noWrap l active).fits
  · rw [Function.update_of_ne own] at begun ⊢
    exact flow.expected m also v member begun

theorem launch (sound : tr.Sound) (flow : Flow tr exact lad f) (active : l ∈ tr.active)
    (worker : w ∈ (tr.tree l.1).workers) (idle : f.begun (l.ref w) = f.done (l.ref w)) :
    Flow tr exact (launched tr lad l w) (f.launch tr.cfg (l.ref w) (tr.size l)) := by
  have flights := flow.first_flights sound active worker idle
    (f.setTensor (l.ref w) { f.objs.tensor (l.ref w) with
      numPktsExpected := Worker.pktsExpected tr.cfg (tr.size l) }).objs rfl
  have inflight : (f.launch tr.cfg (l.ref w) (tr.size l)).inflight =
      f.inflight ++ (firstPlaces tr l w).map fun p => tr.flight p (lad.low p) w :=
    congrArg (f.inflight ++ ·) flights
  have sent : (f.launch tr.cfg (l.ref w) (tr.size l)).sent =
      f.sent ++ (firstPlaces tr l w).map fun p => tr.flight p (lad.low p) w :=
    congrArg (f.sent ++ ·) flights
  constructor
  case wired => exact flow.wired
  case coreId => exact flow.coreId
  case allocated => exact flow.allocated
  case ordered =>
    intro m also i slot
    simp only [launched]
    split
    · rename_i here
      obtain ⟨rfl,_⟩ := here
      exact (flow.ordered m also i slot).send (launch_level flow active worker idle slot).1
    · exact flow.ordered m also i slot
  case level =>
    intro m also flat i slot t inside
    rw [(launched_kept l w m i).1,(launched_kept l w m i).2.1]
    exact flow.level m also flat i slot t inside
  case links =>
    have links := launch_links flow active worker idle
    rw [inflight]
    exact links
  case posts =>
    intro m also i slot x station
    rw [(launched_station l w m i x).1,(launched_station l w m i x).2]
    exact flow.posts m also i slot x station
  case senders =>
    intro m also v member
    exact launch_sender flow active worker idle sound also member
  case expected =>
    intro m also v member begun
    exact launch_expected sound flow active also member begun
  case sentProper =>
    intro fl member
    rw [sent] at member
    rcases List.mem_append.mp member with old | new
    · exact flow.sentProper fl old
    · obtain ⟨⟨m,i,k⟩,inside,rfl⟩ := List.mem_map.mp new
      rw [tr.flight_place]
      obtain ⟨rfl,bounds,rfl⟩ := (mem_firstPlaces l w).mp inside
      exact ⟨⟨active,bounds.1,worker⟩,w,rfl⟩
  case gotProper => exact flow.gotProper
  case sentLog =>
    intro m also i slot v member
    have log := launch_sentLog flow active worker idle also slot member
    rw [sent]
    exact log
  case gotLog =>
    intro m also i slot v member
    rw [(launched_kept l w m i).2.2]
    exact flow.gotLog m also i slot v member

/-- When a worker has the results of an allreduce, the switches above it have closed all its
rounds. -/
theorem closed (flow : Flow tr exact lad f) (active : l ∈ tr.active)
    (worker : w ∈ (tr.tree l.1).workers) (slot : s < tr.cfg.numSlots)
    (above : x = .tor ((tr.tree l.1).torOf w) ∨ x = .core) :
    f.done (l.ref w) * tr.rounds l s ≤ (lad l s).own x := by
  have base : f.done (l.ref w) * tr.rounds l s ≤ (lad l s).got w :=
    (flow.senders l active w worker).base s slot
  have ordered := flow.ordered l active s slot
  have node := (tr.tree l.1).shape.maps w worker
  have got := ordered.got_le w worker
  have relayed := ordered.relayed_le _ node
  have reduced := ordered.reduced_le _ node
  have joined := ordered.joined_le _ node
  rcases above with rfl | rfl
  · change _ ≤ (lad l s).merged ((tr.tree l.1).shape.above w)
    omega
  · change _ ≤ (lad l s).reduced
    omega

theorem clean (sound : tr.Sound) (flow : Flow tr exact lad f) (active : l ∈ tr.active)
    (station : (tr.tree l.1).IsStation x) (worker : w ∈ (tr.tree l.1).workers)
    (above : x = .tor ((tr.tree l.1).torOf w) ∨ x = .core)
    (ended : exact → f.cleaned x l + 1 ≤ f.done (l.ref w)) (turn : Nat) :
    Flow tr exact lad (f.clean tr.cfg x l turn) := by
  have config := Switch.config_clean (f.net.switch x) (l.cut tr.cfg)
  refine { flow with
    wired := fun m also => ?_
    coreId := ?_
    posts := fun m also i slot y reduces => ?_
    senders := fun m also v member => ?_ }
  · exact (flow.wired m also).of_config (Network.setSwitch_tor_config _ _ _ config)
      (Network.setSwitch_core_config _ _ _ config) fun v => by
        simp only [Fabric.clean,Network.setSwitch_worker]
  · exact (congrArg Switch.id (Network.setSwitch_core_config _ _ _ config)).trans flow.coreId
  · have before := flow.posts m also i slot y reduces
    simp only [Fabric.clean]
    rcases eq_or_ne y x with rfl | away
    · rw [Network.switch_setSwitch_self _ _ _ station.ne_worker,Function.update_self]
      rcases eq_or_ne m l with rfl | other
      · rw [Function.update_self]
        refine before.clean (fun tight => ?_)
          (Ladder.own_le_cnt (flow.ordered m active i slot) station)
        exact (Nat.mul_le_mul_right _ (ended tight)).trans (flow.closed active worker slot above)
      · have cut : m.cut tr.cfg ≠ l.cut tr.cfg := fun same => other (sound.apart m also l active same)
        rw [Function.update_of_ne other]
        exact before.frame (fun v => by rw [Switch.count_clean,if_neg cut])
          fun v => by rw [Switch.seen_clean,if_neg cut]
    · rw [Network.switch_setSwitch_other _ _ _ away reduces.ne_worker,Function.update_of_ne away]
      exact before
  · simp only [Fabric.clean,Network.setSwitch_worker]
    exact flow.senders m also v member

theorem cleanUp (sound : tr.Sound) (flow : Flow tr exact lad f) (active : l ∈ tr.active)
    (worker : w ∈ (tr.tree l.1).workers)
    (ended : exact → ∀ x, (tr.tree l.1).Cleans w x → f.cleaned x l + 1 ≤ f.done (l.ref w))
    (turn : Nat) : Flow tr exact lad (f.cleanUp tr.cfg (l.ref w) turn) := by
  rcases f.cleanUp_cases tr.cfg (flow.wired l active) worker turn with
    ⟨_,none⟩ | ⟨lower,_,one⟩ | ⟨lower,upper,both⟩
  · rw [none]
    exact flow
  · rw [one]
    exact flow.clean sound active lower.station worker (Or.inl rfl)
      (fun tight => ended tight _ lower) turn
  · rw [both]
    refine (flow.clean sound active lower.station worker (Or.inl rfl)
      (fun tight => ended tight _ lower) turn).clean sound active upper.station worker (Or.inr rfl)
      (fun tight => ?_) turn
    have before := ended tight _ upper
    simpa [Fabric.clean] using before

theorem deliver (sound : tr.Sound) (flow : Flow tr exact lad f) (member : fl ∈ f.inflight)
    (timely : exact → fl.hop.packet.upward = true → fl.turn ≤ f.cleaned fl.hop.dest fl.layer) :
    (∃ lad', Flow tr exact lad' (f.deliver tr.cfg fl)) ∧
      (exact → (f.deliver tr.cfg fl).shadowed = f.shadowed) := by
  obtain ⟨owner,_,_,stamp⟩ := flow.links.stamped fl member
  have proper := flow.links.proper fl member
  rcases place : fl.place with ⟨l,s,k⟩
  rw [place] at proper stamp
  have dest : fl.hop.dest = k.dest (tr.tree l.1) := by rw [stamp]; rfl
  have upward : fl.hop.packet.upward = k.upward := by rw [stamp]; rfl
  have layer : fl.layer = l := congrArg Place.layer place
  rw [dest,upward,layer] at timely
  cases k with
  | up w =>
    have same : f.deliver tr.cfg fl = f.atSwitch tr.cfg fl := by
      simp only [Fabric.deliver,dest,Link.dest]
    rw [same]
    exact flow.contribute sound member place (.up proper.2.2) fun tight => timely tight rfl
  | rise t =>
    have same : f.deliver tr.cfg fl = f.atSwitch tr.cfg fl := by
      simp only [Fabric.deliver,dest,Link.dest]
    rw [same]
    exact flow.contribute sound member place (.rise proper.2.2.1 proper.2.2.2)
      fun tight => timely tight rfl
  | fall t =>
    have same : f.deliver tr.cfg fl = f.atSwitch tr.cfg fl := by
      simp only [Fabric.deliver,dest,Link.dest]
    rw [same]
    obtain ⟨next,kept⟩ := flow.relay sound member place
    exact ⟨next,fun _ => kept⟩
  | down w =>
    have same : f.deliver tr.cfg fl = f.atWorker tr.cfg fl w := by
      simp only [Fabric.deliver,dest,Link.dest]
    rw [same]
    exact ⟨flow.receive sound member place,fun _ => rfl⟩

/-- A network that holds no entry of the layers, before any allreduce. -/
structure Fresh (tr : Traffic) (net : Network) : Prop where
  counts : ∀ l ∈ tr.active, ∀ x key, (net.switch x).count (l.cut tr.cfg) key = 0
  seen : ∀ l ∈ tr.active, ∀ x key, (net.switch x).seen (l.cut tr.cfg) key = ∅
  received : ∀ l ∈ tr.active, ∀ w, (net.worker w).received (l.cut tr.cfg) = ∅

section records
variable {old new : Network} (same : HierarchicalTopology.SameRecords old new)
include same

theorem recorded_switch (x : Node) : HierarchicalTopology.recorded (new.switch x) =
    HierarchicalTopology.recorded (old.switch x) := by
  cases x with
  | tor t => exact same.tors t
  | core => exact same.core
  | worker w => exact same.core

theorem count_of_records (x : Node) (tkey : Nat) (key : SlotKey) :
    (new.switch x).count tkey key = (old.switch x).count tkey key :=
  congrArg (fun records => (records.1.get tkey).get key) (recorded_switch same x)

theorem seen_of_records (x : Node) (tkey : Nat) (key : SlotKey) :
    (new.switch x).seen tkey key = (old.switch x).seen tkey key :=
  congrArg (fun records => (records.2.get tkey).get key) (recorded_switch same x)

theorem received_of_records (w tkey : Nat) :
    (new.worker w).received tkey = (old.worker w).received tkey :=
  congrArg (fun packets => packets.get tkey) (same.workers w)

end records

theorem Fresh.of_records {net placed : Network} (fresh : Fresh tr net)
    (same : HierarchicalTopology.SameRecords net placed) : Fresh tr placed where
  counts l active x key := (count_of_records same x _ key).trans (fresh.counts l active x key)
  seen l active x key := (seen_of_records same x _ key).trans (fresh.seen l active x key)
  received l active w := (received_of_records same w _).trans (fresh.received l active w)

theorem initial (sound : tr.Sound) (exact : Prop) {net : Network} (objs : Objects)
    (wired : ∀ l ∈ tr.active, Wired (tr.tree l.1) l.1 net) (coreId : net.core.id = tr.coreId)
    (allocated : ∀ l ∈ tr.active,
      objs.numWorkersAllocated l.1 = (tr.tree l.1).workers.length) (fresh : Fresh tr net) :
    Flow tr exact (fun _ _ => Ladder.ground) { net := net, objs := objs } where
  wired := wired
  coreId := coreId
  allocated := allocated
  ordered _ _ _ _ := Ladder.ground_ordered _
  level _ _ _ _ _ _ _ := Nat.le_refl 0
  links := by
    have none : Links tr exact (fun _ => 0) (fun _ => 0) (fun _ => 0) [] := Links.nil
    refine none.congr (fun p _ => ?_) fun p _ => ?_
    · obtain ⟨l,s,k⟩ := p
      cases k <;> rfl
    · obtain ⟨l,s,k⟩ := p
      cases k <;> rfl
  posts l active s slot x station := by
    have zero : (Ladder.ground : Ladder Nat Nat).own x = 0 := by cases x <;> rfl
    have zeros : (Ladder.ground : Ladder Nat Nat).cnt x = fun _ => 0 := by cases x <;> rfl
    rw [zero,zeros]
    exact Post.ground (Tree.children_nonempty station)
      (fun v => fresh.counts l active x (s,v)) fun v => fresh.seen l active x (s,v)
  senders l active w worker := by
    rw [fresh.received l active]
    exact Sender.ground sound l
  expected l _ w _ begun := absurd begun (Nat.lt_irrefl 0)
  sentProper _ member := by cases member
  gotProper _ member := by cases member
  sentLog _ _ _ _ _ _ := rfl
  gotLog _ _ _ _ _ _ := rfl

end CloudSim.Flow
