import CloudSim.Flow
import CloudSim.Isolation

/-! The steps of workers keep the packets, switches and workers in line with the progress of
every slot. -/
namespace CloudSim.Flow
variable {tr : Traffic} {exact : Prop} {lad : Ladders} {f : Fabric}

/-- A worker has handled a packet of one slot, and the progress of the slot with it. -/
theorem worked (flow : Flow tr exact lad f) {f' : Fabric} {wk : Worker} {ladder : Ladder Nat Nat}
    (net : f'.net = f.net.setWorker w wk) (config : wk.config = (f.net.worker w).config)
    (objs : f'.objs = f.objs) (begun : f'.begun = f.begun) (cleaned : f'.cleaned = f.cleaned)
    (done : ∀ r, r ≠ l.ref w → f'.done r = f.done r)
    (frame : ∀ m ∈ tr.active, m ≠ l →
      wk.received (m.cut tr.cfg) = (f.net.worker w).received (m.cut tr.cfg))
    (ordered : ladder.Ordered (tr.tree l.1).shape)
    (level : (tr.tree l.1).flat = true → ∀ t ∈ (tr.tree l.1).tors,
      ladder.merged t ≤ ladder.relayed t)
    (switches : ∀ x, ladder.cnt x = (lad l s).cnt x ∧ ladder.own x = (lad l s).own x)
    (others : ∀ v, v ≠ w → ladder.sent v = (lad l s).sent v ∧ ladder.got v = (lad l s).got v)
    (here : Sender tr l (f.begun (l.ref w)) (f'.done (l.ref w))
      (Function.update (fun i => (lad l i).sent w) s (ladder.sent w))
      (Function.update (fun i => (lad l i).got w) s (ladder.got w))
      (wk.received (l.cut tr.cfg)))
    (links : Links tr exact f.begun (lad.set l s ladder).low ((lad.set l s ladder).high tr)
      f'.inflight)
    (sentProper : ∀ fl ∈ f'.sent, tr.Sends fl.place)
    (gotProper : ∀ fl ∈ f'.got, tr.Receives fl.place)
    (sentLog : ∀ m ∈ tr.active, ∀ i < tr.cfg.numSlots, ∀ v ∈ (tr.tree m.1).workers,
      Logged tr ⟨m,i,.up v⟩ ((lad.set l s ladder m i).sent v) f'.sent)
    (gotLog : ∀ m ∈ tr.active, ∀ i < tr.cfg.numSlots, ∀ v ∈ (tr.tree m.1).workers,
      Logged tr ⟨m,i,.down v⟩ ((lad.set l s ladder m i).got v) f'.got) :
    Flow tr exact (lad.set l s ladder) f' where
  wired m also := by
    rw [net]
    refine (flow.wired m also).of_config (fun _ => rfl) rfl fun v => ?_
    rcases eq_or_ne v w with rfl | other
    · rw [Network.setWorker_same]; exact config
    · rw [Network.setWorker_other _ _ other]
  coreId := by rw [net]; exact flow.coreId
  allocated m also := by rw [objs]; exact flow.allocated m also
  ordered := flow.set_ordered ordered
  level := flow.set_level level
  links := by rw [begun]; exact links
  posts m also i slot x station := by
    rw [cleaned,net,Ladders.set_field (Ladder.cnt · x) (switches x).1,
      Ladders.set_field (Ladder.own · x) (switches x).2]
    exact flow.posts m also i slot x station
  senders m also v worker := by
    rw [begun,net]
    by_cases own : v = w ∧ m = l
    · obtain ⟨rfl,rfl⟩ := own
      rw [Network.setWorker_same]
      rw [Ladders.set_column (fun ladder => ladder.sent v),
        Ladders.set_column (fun ladder => ladder.got v)]
      exact here
    · have foreign : m.ref v ≠ l.ref w := fun same => own (Layer.ref_inj same).symm
      have received : ((f.net.setWorker w wk).worker v).received (m.cut tr.cfg) =
          (f.net.worker v).received (m.cut tr.cfg) := by
        rcases eq_or_ne v w with rfl | other
        · rw [Network.setWorker_same]
          exact frame m also fun same => own ⟨rfl,same⟩
        · rw [Network.setWorker_other _ _ other]
      have unchanged (i : Nat) : (lad.set l s ladder m i).sent v = (lad m i).sent v ∧
          (lad.set l s ladder m i).got v = (lad m i).got v := by
        by_cases same : m = l ∧ i = s
        · obtain ⟨rfl,rfl⟩ := same
          rw [Ladders.set_same]
          exact others v fun same => own ⟨same,rfl⟩
        · rw [Ladders.set_other _ _ same]
          exact ⟨rfl,rfl⟩
      simp only [unchanged]
      rw [done _ foreign,received]
      exact flow.senders m also v worker
  expected m also v worker := by rw [begun,objs]; exact flow.expected m also v worker
  sentProper := sentProper
  gotProper := gotProper
  sentLog := sentLog
  gotLog := gotLog

structure Landing (tr : Traffic) (lad : Ladders) (f : Fabric) (l : Layer) (s w owner : Nat) :
    Prop where
  active : l ∈ tr.active
  slot : s < tr.cfg.numSlots
  worker : w ∈ (tr.tree l.1).workers
  pending : (lad l s).got w < (lad l s).relayed ((tr.tree l.1).torOf w)
  running : f.begun (l.ref w) = f.done (l.ref w) + 1
  more : (lad l s).got w < (f.done (l.ref w) + 1) * tr.rounds l s
  owned : owner ∈ (tr.tree l.1).workers
  launched : 0 < f.begun (l.ref owner)

theorem landing (flow : Flow tr exact lad f) (member : fl ∈ f.inflight)
    (place : fl.place = ⟨l,s,.down w⟩) :
    ∃ owner, Landing tr lad f l s w owner ∧
      fl = tr.flight ⟨l,s,.down w⟩ ((lad l s).got w) owner := by
  obtain ⟨owner,member',launched,stamp⟩ := flow.links.stamped fl member
  have proper := flow.links.proper fl member
  have pending := flow.links.under fl member
  rw [place] at proper pending stamp member' launched
  obtain ⟨active,slot,worker⟩ := proper
  have pending : (lad l s).got w < (lad l s).relayed ((tr.tree l.1).torOf w) := pending
  have ordered := flow.ordered l active s slot
  have node := (tr.tree l.1).shape.maps w worker
  have relayed := ordered.relayed_le _ node
  have reduced := ordered.reduced_le _ node
  have joined := ordered.joined_le _ node
  have merged := ordered.merged_le w worker
  have counted := ordered.counted_le w worker
  have outstanding : (lad l s).got w < (lad l s).sent w := by
    change (lad l s).merged ((tr.tree l.1).torOf w) ≤ _ at merged
    change (lad l s).relayed ((tr.tree l.1).torOf w) ≤ _ at relayed
    change _ ≤ (lad l s).joined ((tr.tree l.1).torOf w) at reduced
    change (lad l s).joined ((tr.tree l.1).torOf w) ≤ (lad l s).merged ((tr.tree l.1).torOf w)
      at joined
    omega
  obtain ⟨running,more⟩ := (flow.senders l active w worker).running slot outstanding
  exact ⟨owner,⟨active,slot,worker,pending,running,more,member',launched⟩,stamp⟩

/-- The offset and the step in the pass, for a result of the running allreduce. -/
theorem Landing.pass (landing : Landing tr lad f l s w owner) (flow : Flow tr exact lad f) :
    (lad l s).got w = f.done (l.ref w) * tr.rounds l s + (lad l s).got w % tr.rounds l s ∧
      0 < tr.rounds l s ∧ tr.turn l s ((lad l s).got w) = f.done (l.ref w) := by
  have base := (flow.senders l landing.active w landing.worker).base s landing.slot
  have more := landing.more
  rw [Nat.succ_mul] at more
  obtain ⟨r,split⟩ := Nat.exists_eq_add_of_le base
  have within : r < tr.rounds l s := by omega
  obtain ⟨mod,div⟩ : (lad l s).got w % tr.rounds l s = r ∧
      (lad l s).got w / tr.rounds l s = f.done (l.ref w) := split ▸ Lanes.of_pass within
  exact ⟨by rw [mod]; exact split,Nat.zero_lt_of_lt within,div⟩

/-- The new packet under way, if any, and the ones still under way. -/
theorem receive_links (flow : Flow tr exact lad f) (member : fl ∈ f.inflight)
    (place : fl.place = ⟨l,s,.down w⟩) :
    let lad' := lad.set l s ((lad l s).receive w)
    Links tr exact f.begun lad'.low (lad'.high tr) (f.inflight.erase fl) := by
  intro lad'
  have proper : tr.Proper ⟨l,s,.down w⟩ := place ▸ flow.links.proper fl member
  have lows (j : Link) : j.low ((lad l s).receive w) =
      if j = .down w then (Link.down w).low (lad l s) + 1 else j.low (lad l s) := by
    cases j with
    | up v => rfl
    | rise t => rfl
    | fall t => rfl
    | down v => simp [Link.low,Ladder.receive,Function.update_apply]
  refine (flow.links.take member (place ▸ flow.window proper)).congr (fun p _ => ?_) ?_
  · rw [place]
    exact Ladders.low_take lows p
  · rintro ⟨m,i,j⟩ _
    by_cases here : m = l ∧ i = s
    · obtain ⟨rfl,rfl⟩ := here
      rw [Ladders.high_here]
      cases j <;> rfl
    · exact Ladders.high_elsewhere _ _ _ here j

theorem received_frame (sound : tr.Sound) (objs : Objects) (wk : Worker) {p : Place}
    (mine : p.layer ∈ tr.active) (q owner : Nat) : ∀ m ∈ tr.active, m ≠ p.layer →
      (wk.receivePacket tr.cfg objs (tr.flight p q owner).hop.packet).worker.received
        (m.cut tr.cfg) = wk.received (m.cut tr.cfg) := by
  intro m also other
  apply Isolation.get_of_entry
  exact Isolation.worker_received_frame tr.cfg objs wk _ fun same =>
    other (sound.apart m also p.layer mine same)

theorem land (sound : tr.Sound) (flow : Flow tr exact lad f)
    (landing : Landing tr lad f l s w owner) :
    let q := (lad l s).got w
    let p := (tr.flight ⟨l,s,.down w⟩ q owner).hop.packet
    let result := (f.net.worker w).receivePacket tr.cfg f.objs p
    let received := insert (tr.offset l s q) ((f.net.worker w).received (l.cut tr.cfg))
    (received.card = tr.pkts l ∧ result.released = true ∧ result.sent = [] ∧
      result.worker.received (l.cut tr.cfg) = ∅) ∨
    (received.card ≠ tr.pkts l ∧ result.released = false ∧
      result.worker.received (l.cut tr.cfg) = received ∧
      (q + 1 = (f.done (l.ref w) + 1) * tr.rounds l s ∧ result.sent = [] ∨
        q + 2 ≤ (f.done (l.ref w) + 1) * tr.rounds l s ∧
          Fabric.fly (tr.turn l s q) result.sent = [tr.flight ⟨l,s,.up w⟩ (q + 1) owner])) := by
  intro q p result received
  obtain ⟨(split : q = _ + q % tr.rounds l s),used,turn⟩ := landing.pass flow
  have more : q < (f.done (l.ref w) + 1) * tr.rounds l s := landing.more
  have sender := flow.senders l landing.active w landing.worker
  have wired := flow.wired l landing.active
  have noWrap := sound.noWrap l landing.active
  have tkey : u32 (p.tensor.key tr.cfg) = l.cut tr.cfg := rfl
  have expected : (f.objs.tensor p.tensor).numPktsExpected = tr.pkts l :=
    flow.expected l landing.active owner landing.owned landing.launched
  obtain ⟨fresh,bound⟩ := sender.arrival sound landing.slot landing.more
  have fresh : p.offset ∉ (f.net.worker w).received (l.cut tr.cfg) := fresh
  by_cases full : received.card = tr.pkts l
  · have taken := Worker.receive_last tr.cfg f.objs (f.net.worker w) p fresh (full.trans expected.symm)
    refine Or.inl ⟨full,?_⟩
    simp only [result,taken,tkey,Worker.received_clearReceived,and_self]
  refine Or.inr ⟨full,?_⟩
  have rest : received.card ≠ (f.objs.tensor p.tensor).numPktsExpected := expected ▸ full
  have inside : Lanes.item (tr.pkts l) tr.cfg.numSlots s q < tr.pkts l :=
    Lanes.item_lt landing.slot used q
  have several : 1 < tr.pkts l := by
    have nonempty : 0 < received.card := Finset.card_pos.mpr ⟨_,Finset.mem_insert_self _ _⟩
    have bound : received.card ≤ tr.pkts l := bound
    omega
  have size : p.gradSize = tr.size l := rfl
  rw [Nat.succ_mul] at more
  by_cases goesOn : q % tr.rounds l s + 1 < tr.rounds l s
  · have item : Lanes.item (tr.pkts l) tr.cfg.numSlots s (q + 1) =
        Lanes.item (tr.pkts l) tr.cfg.numSlots s q + tr.cfg.numSlots := Lanes.item_succ goesOn
    have below := item ▸ Lanes.item_lt landing.slot used (q + 1)
    have within := (Config.lt_pkts sound.updates).mp below
    have start : Worker.nextStart tr.cfg p.offset = tr.offset l s (q + 1) :=
      (Config.nextStart_within noWrap.fits within).trans (by rw [Traffic.offset,item])
    have taken := Worker.receive_next tr.cfg f.objs (f.net.worker w) p fresh rest (by
      rw [start,size,Traffic.offset,item]; exact within)
    refine ⟨by simp only [result,taken],?_,Or.inr ⟨by rw [Nat.succ_mul]; omega,?_⟩⟩
    · simp only [result,taken,tkey,Worker.received_setReceived]
      rfl
    have id : (f.net.worker w).id = w := wired.workerId w landing.worker
    have tor : (f.net.worker w).tor = (tr.tree l.1).torOf w := wired.workerTor w landing.worker
    have flipped : sub32 1 p.ver = tr.ver l s (q + 1) :=
      (Traffic.sub_ver q).trans (Traffic.ver_succ goesOn).symm
    have allocated : f.objs.numWorkersAllocated p.tensor.job = (tr.tree l.1).workers.length :=
      flow.allocated l landing.active
    have hop : (f.net.worker w).sendPacket f.objs (Worker.nextStart tr.cfg p.offset)
        (sub32 1 p.ver) p.slot p.gradSize p.tensor =
        (tr.flight ⟨l,s,.up w⟩ (q + 1) owner).hop := by
      simp only [Worker.sendPacket,id,tor,start,flipped,allocated,size,u32_of_lt noWrap.fits]
      rfl
    simp only [result,taken,Fabric.fly,List.map_cons,List.map_nil,hop,
      ← Traffic.turn_succ goesOn]
    rfl
  · have last : tr.rounds l s = q % tr.rounds l s + 1 := by
      have below := Nat.mod_lt q used
      omega
    have past : tr.size l ≤
        (Lanes.item (tr.pkts l) tr.cfg.numSlots s q + tr.cfg.numSlots) * tr.cfg.numUpdates := by
      by_contra within
      have below := (Config.lt_pkts sound.updates).mpr (Nat.not_le.mp within)
      refine goesOn ((Traffic.lt_rounds landing.slot).mpr ?_)
      rw [Nat.succ_mul,← Nat.add_assoc]
      exact below
    have taken := Worker.receive_stop tr.cfg f.objs (f.net.worker w) p fresh rest
      (noWrap.next several _ inside past)
    refine ⟨by simp only [result,taken],?_,Or.inl ⟨by rw [Nat.succ_mul]; omega,?_⟩⟩
    · simp only [result,taken,tkey,Worker.received_setReceived]
      rfl
    · simp only [result,taken]

theorem atWorker_done_other (cfg : Config) (f : Fabric) (fl : Flight) (w : Nat) {r : TensorRef}
    (other : r ≠ fl.layer.ref w) : (f.atWorker cfg fl w).done r = f.done r := by
  simp only [Fabric.atWorker]
  split
  · exact Function.update_of_ne other _ _
  · rfl

theorem atWorker_done (cfg : Config) (f : Fabric) (fl : Flight) (w : Nat) :
    (f.atWorker cfg fl w).done (fl.layer.ref w) =
      if ((f.net.worker w).receivePacket cfg f.objs fl.hop.packet).released
      then f.done (fl.layer.ref w) + 1 else f.done (fl.layer.ref w) := by
  simp only [Fabric.atWorker]
  split
  · exact Function.update_self _ _ _
  · rfl

theorem Landing.sent (landing : Landing tr lad f l s w owner) (flow : Flow tr exact lad f) :
    (lad l s).sent w = (lad l s).got w + 1 := by
  have sender := flow.senders l landing.active w landing.worker
  rw [landing.running] at sender
  have outstanding := sender.sent s landing.slot
  rw [Nat.add_sub_cancel_left] at outstanding
  have more := landing.more
  change (lad l s).sent w = min ((lad l s).got w + 1) _ at outstanding
  omega

section receive
variable (flow : Flow tr exact lad f) (member : fl ∈ f.inflight) (place : fl.place = ⟨l,s,.down w⟩)
  (landing : Landing tr lad f l s w owner)
  (carried : fl = tr.flight ⟨l,s,.down w⟩ ((lad l s).got w) owner)

include flow member place in
theorem receive_gotProper (got : g ∈ f.got ++ [fl]) : tr.Receives g.place := by
  rcases List.mem_append.mp got with old | new
  · exact flow.gotProper g old
  · rw [List.mem_singleton.mp new]
    exact ⟨flow.links.proper fl member,w,congrArg Place.link place⟩

include flow carried in
theorem receive_gotLog {ladder : Ladder Nat Nat}
    (same : ladder.got = ((lad l s).receive w).got) :
    ∀ m ∈ tr.active, ∀ i < tr.cfg.numSlots, ∀ v ∈ (tr.tree m.1).workers,
      Logged tr ⟨m,i,.down v⟩ ((lad.set l s ladder m i).got v) (f.got ++ [fl]) := by
  rw [carried]
  refine Logged.step .down Ladder.got (fun _ _ => Link.down.inj)
    flow.gotLog (fun v other => ?_) ?_ owner
  · rw [same]; exact Function.update_of_ne other _ _
  · rw [same]; exact Function.update_self _ _ _

include flow in
theorem receive_sentLog : ∀ m ∈ tr.active, ∀ i < tr.cfg.numSlots, ∀ v ∈ (tr.tree m.1).workers,
    Logged tr ⟨m,i,.up v⟩ ((lad.set l s ((lad l s).receive w) m i).sent v) f.sent := by
  intro m also i lane v member
  by_cases here : m = l ∧ i = s
  · obtain ⟨rfl,rfl⟩ := here
    rw [Ladders.set_same]
    exact flow.sentLog m also i lane v member
  · rw [Ladders.set_other _ _ here]
    exact flow.sentLog m also i lane v member

include flow member place landing carried

theorem receive_quiet (sound : tr.Sound)
    (quiet : ((f.net.worker w).receivePacket tr.cfg f.objs fl.hop.packet).sent = [])
    (here : Sender tr l (f.begun (l.ref w)) ((f.atWorker tr.cfg fl w).done (l.ref w))
      (fun i => (lad l i).sent w)
      (Function.update (fun i => (lad l i).got w) s ((lad l s).got w + 1))
      (((f.net.worker w).receivePacket tr.cfg f.objs fl.hop.packet).worker.received
        (l.cut tr.cfg))) :
    Flow tr exact (lad.set l s ((lad l s).receive w)) (f.atWorker tr.cfg fl w) := by
  have config := Worker.config_receivePacket tr.cfg f.objs (f.net.worker w) fl.hop.packet
  have frame := received_frame sound f.objs (f.net.worker w) (p := ⟨l,s,.down w⟩) landing.active
    ((lad l s).got w) owner
  rw [← carried] at frame
  have layer : fl.layer = l := congrArg Place.layer place
  have received := (flow.ordered l landing.active s landing.slot).receive landing.pending
  have unsent : Function.update (fun i => (lad l i).sent w) s (((lad l s).receive w).sent w) =
      fun i => (lad l i).sent w := Function.update_eq_self s _
  have once : Function.update (fun i => (lad l i).got w) s (((lad l s).receive w).got w) =
      Function.update (fun i => (lad l i).got w) s ((lad l s).got w + 1) :=
    congrArg _ (Function.update_self _ _ _)
  refine flow.worked rfl config rfl rfl rfl
    (fun r other => atWorker_done_other tr.cfg f fl w (layer ▸ other)) frame
    received (flow.level l landing.active · s landing.slot)
    (fun x => by cases x <;> exact ⟨rfl,rfl⟩)
    (fun v other => ⟨rfl,Function.update_of_ne other _ _⟩) ?_ ?_ ?_
    (fun _ got => flow.receive_gotProper member place got) ?_ (flow.receive_gotLog carried rfl)
  · rw [unsent,once]
    exact here
  · simp only [Fabric.atWorker,quiet,Fabric.fly,List.map_nil,List.append_nil]
    exact flow.receive_links member place
  · simpa only [Fabric.atWorker,quiet,Fabric.fly,List.map_nil,List.append_nil] using
      flow.sentProper
  · simpa only [Fabric.atWorker,quiet,Fabric.fly,List.map_nil,List.append_nil] using
      flow.receive_sentLog

theorem answer_links :
    let lad' := lad.set l s (((lad l s).receive w).send w)
    Links tr exact f.begun lad'.low (lad'.high tr)
      (f.inflight.erase fl ++ [tr.flight ⟨l,s,.up w⟩ ((lad l s).got w + 1) owner]) := by
  have ordered := flow.ordered l landing.active s landing.slot
  have received := ordered.receive landing.pending
  have counted := ordered.counted_le w landing.worker
  have reached := received.got_le_counted landing.worker landing.worker
  have sent := landing.sent flow
  have level : ((lad l s).receive w).counted w = (lad l s).got w + 1 := by
    simp only [Ladder.receive,Function.update_self] at reached ⊢
    omega
  refine send_links (flow.receive_links member place) landing.active landing.slot [.up w]
    (List.nodup_singleton _) (fun j hop => ?_) (fun j hop => ?_)
    (low_of_set fun j _ => by cases j <;> rfl) (fun j _ => ?_) (fun m i j other => ?_)
    landing.owned landing.launched
  · rw [List.mem_singleton.mp hop]; exact landing.worker
  · rw [List.mem_singleton.mp hop,Ladders.low_here,Ladders.high_here]
    exact ⟨level,sent⟩
  · rw [Ladders.high_here,Ladders.high_here]
    cases j with
    | up v =>
      rcases eq_or_ne v w with rfl | other
      · simp [Link.high,Ladder.send]
      · simp [Link.high,Ladder.send,other]
    | rise t => simp [Link.high,Ladder.send]
    | fall t => simp [Link.high,Ladder.send]
    | down v => simp [Link.high,Ladder.send]
  · rw [Ladders.high_elsewhere _ _ _ other,Ladders.high_elsewhere _ _ _ other]

theorem receive_answered (sound : tr.Sound)
    (flights : Fabric.fly fl.turn
        ((f.net.worker w).receivePacket tr.cfg f.objs fl.hop.packet).sent =
      [tr.flight ⟨l,s,.up w⟩ ((lad l s).got w + 1) owner])
    (here : Sender tr l (f.begun (l.ref w)) ((f.atWorker tr.cfg fl w).done (l.ref w))
      (Function.update (fun i => (lad l i).sent w) s ((lad l s).got w + 2))
      (Function.update (fun i => (lad l i).got w) s ((lad l s).got w + 1))
      (((f.net.worker w).receivePacket tr.cfg f.objs fl.hop.packet).worker.received
        (l.cut tr.cfg))) :
    Flow tr exact (lad.set l s (((lad l s).receive w).send w)) (f.atWorker tr.cfg fl w) := by
  have config := Worker.config_receivePacket tr.cfg f.objs (f.net.worker w) fl.hop.packet
  have frame := received_frame sound f.objs (f.net.worker w) (p := ⟨l,s,.down w⟩) landing.active
    ((lad l s).got w) owner
  rw [← carried] at frame
  have layer : fl.layer = l := congrArg Place.layer place
  have received := (flow.ordered l landing.active s landing.slot).receive landing.pending
  have sent := landing.sent flow
  have caught : ((lad l s).receive w).got w = (lad l s).got w + 1 := Function.update_self _ _ _
  have twice : (((lad l s).receive w).send w).sent w = (lad l s).got w + 2 := by
    simp only [Ladder.send,Ladder.receive,Function.update_self]
    omega
  have once : (((lad l s).receive w).send w).got w = (lad l s).got w + 1 := caught
  refine flow.worked rfl config rfl rfl rfl
    (fun r other => atWorker_done_other tr.cfg f fl w (layer ▸ other))
    frame (received.send (sent.trans caught.symm))
    (flow.level l landing.active · s landing.slot) (fun x => by cases x <;> exact ⟨rfl,rfl⟩)
    (fun v other => ⟨Function.update_of_ne other _ _,Function.update_of_ne other _ _⟩)
    ?_ ?_ ?_ (fun _ got => flow.receive_gotProper member place got) ?_
    (flow.receive_gotLog carried rfl)
  · rw [twice,once]
    exact here
  · simp only [Fabric.atWorker]
    rw [flights]
    exact flow.answer_links member place landing carried
  · intro g member
    simp only [Fabric.atWorker] at member
    rw [flights] at member
    rcases List.mem_append.mp member with old | new
    · exact flow.sentProper g old
    · rw [List.mem_singleton.mp new,tr.flight_place]
      exact ⟨⟨landing.active,landing.slot,landing.worker⟩,w,rfl⟩
  · simp only [Fabric.atWorker]
    rw [flights,← sent]
    refine Logged.step .up Ladder.sent (fun _ _ => Link.up.inj)
      flow.sentLog (fun v other => Function.update_of_ne other _ _) ?_ owner
    exact Function.update_self _ _ _

end receive

theorem receive (sound : tr.Sound) (flow : Flow tr exact lad f) (member : fl ∈ f.inflight)
    (place : fl.place = ⟨l,s,.down w⟩) :
    ∃ lad', Flow tr exact lad' (f.atWorker tr.cfg fl w) := by
  obtain ⟨owner,landing,carried⟩ := flow.landing member place
  have sent := landing.sent flow
  have more := landing.more
  have sender := flow.senders l landing.active w landing.worker
  rw [landing.running] at sender
  have outcome := flow.land sound landing
  dsimp only at outcome
  rw [← carried] at outcome
  have turn : fl.turn = tr.turn l s ((lad l s).got w) := by rw [carried]; rfl
  have layer : fl.layer = l := congrArg Place.layer place
  have done := atWorker_done tr.cfg f fl w
  rw [layer] at done
  rcases outcome with ⟨full,released,quiet,emptied⟩ | ⟨rest,waiting,kept,next⟩
  · refine ⟨_,flow.receive_quiet member place landing carried sound quiet ?_⟩
    rw [done,released,if_pos rfl,landing.running,emptied]
    exact sender.receive_last sound landing.slot more full
  have goesOn := sender.receive_more sound landing.slot more rest
  rw [waiting,if_neg Bool.false_ne_true] at done
  rcases next with ⟨last,quiet⟩ | ⟨within,sends⟩
  · refine ⟨_,flow.receive_quiet member place landing carried sound quiet ?_⟩
    have value : min ((lad l s).got w + 2) ((f.done (l.ref w) + 1) * tr.rounds l s) =
        (lad l s).sent w := by omega
    rw [value,Function.update_eq_self s fun i => (lad l i).sent w] at goesOn
    rw [done,landing.running,kept]
    exact goesOn
  · refine ⟨_,flow.receive_answered member place landing carried sound (turn ▸ sends) ?_⟩
    rw [Nat.min_eq_left within] at goesOn
    rw [done,landing.running,kept]
    exact goesOn

end CloudSim.Flow
