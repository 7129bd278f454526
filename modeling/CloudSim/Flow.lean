import CloudSim.Hops
import CloudSim.Sender

/-! The packets, switches and workers of a network against the progress of every slot. The
invariant holds in every run; with `exact`, which asks that contributions come after the
clean-ups of earlier allreduces, nothing is dropped and no counter falls behind. -/
namespace CloudSim

abbrev Ladders := Layer → Nat → Ladder Nat Nat

namespace Ladders

def set (lad : Ladders) (l : Layer) (s : Nat) (ladder : Ladder Nat Nat) : Ladders :=
  fun m i => if m = l ∧ i = s then ladder else lad m i

@[simp] theorem set_same (lad : Ladders) (l : Layer) (s : Nat) (ladder : Ladder Nat Nat) :
    lad.set l s ladder l s = ladder := if_pos ⟨rfl,rfl⟩

@[simp] theorem set_self (lad : Ladders) (l : Layer) (s : Nat) : lad.set l s (lad l s) = lad := by
  funext m i
  unfold set
  split
  · rename_i here; rw [here.1,here.2]
  · rfl

theorem set_other (lad : Ladders) (ladder : Ladder Nat Nat) (other : ¬(m = l ∧ i = s)) :
    lad.set l s ladder m i = lad m i := if_neg other

/-- What the new progress of the slot has in common with the old one is that of every slot. -/
theorem set_field {β : Sort*} (field : Ladder Nat Nat → β) {lad : Ladders} {ladder : Ladder Nat Nat}
    (same : field ladder = field (lad l s)) (m : Layer) (i : Nat) :
    field (lad.set l s ladder m i) = field (lad m i) := by
  by_cases here : m = l ∧ i = s
  · obtain ⟨rfl,rfl⟩ := here
    rw [set_same,same]
  · rw [set_other _ _ here]

theorem set_column {β : Type*} (field : Ladder Nat Nat → β) (lad : Ladders) (l : Layer) (s : Nat)
    (ladder : Ladder Nat Nat) : (fun i => field (lad.set l s ladder l i)) =
      Function.update (fun i => field (lad l i)) s (field ladder) := by
  funext i
  rcases eq_or_ne i s with rfl | other
  · rw [Function.update_self,set_same]
  · rw [Function.update_of_ne other,set_other _ _ fun same => other same.2]

def low (lad : Ladders) (p : Place) : Nat := p.link.low (lad p.layer p.slot)

def high (tr : Traffic) (lad : Ladders) (p : Place) : Nat :=
  p.link.high (tr.tree p.layer.1) (lad p.layer p.slot)

section counts
variable (lad : Ladders) (l : Layer) (s : Nat) (ladder : Ladder Nat Nat)

@[simp] theorem low_here (k : Link) : (lad.set l s ladder).low ⟨l,s,k⟩ = k.low ladder :=
  congrArg k.low (set_same ..)

@[simp] theorem high_here (tr : Traffic) (k : Link) :
    (lad.set l s ladder).high tr ⟨l,s,k⟩ = k.high (tr.tree l.1) ladder :=
  congrArg (k.high _) (set_same ..)

variable {l s}

theorem low_elsewhere (other : ¬(m = l ∧ i = s)) (k : Link) :
    (lad.set l s ladder).low ⟨m,i,k⟩ = lad.low ⟨m,i,k⟩ := congrArg k.low (set_other _ _ other)

theorem high_elsewhere (tr : Traffic) (other : ¬(m = l ∧ i = s)) (k : Link) :
    (lad.set l s ladder).high tr ⟨m,i,k⟩ = lad.high tr ⟨m,i,k⟩ :=
  congrArg (k.high _) (set_other _ _ other)

end counts

theorem low_take {lad : Ladders} {ladder : Ladder Nat Nat}
    (lows : ∀ j, Link.low ladder j = if j = k then Link.low (lad l s) k + 1 else j.low (lad l s))
    (p : Place) : (lad.set l s ladder).low p =
      Function.update lad.low ⟨l,s,k⟩ (lad.low ⟨l,s,k⟩ + 1) p := by
  obtain ⟨m,i,j⟩ := p
  by_cases here : m = l ∧ i = s
  · obtain ⟨rfl,rfl⟩ := here
    rw [low_here,lows]
    by_cases same : j = k
    · subst same; rw [if_pos rfl,Function.update_self]; rfl
    · rw [if_neg same,Function.update_of_ne fun equal => same (congrArg Place.link equal)]
      rfl
  · rw [low_elsewhere _ _ here,Function.update_of_ne fun equal =>
      here ⟨congrArg Place.layer equal,congrArg Place.slot equal⟩]

end Ladders

/-- The history at a place holds exactly the packets up to `n`, in order. -/
def Logged (tr : Traffic) (p : Place) (n : Nat) (log : List Flight) : Prop :=
  (log.filter fun fl => fl.place = p).map (fun fl => (fl.turn,fl.hop.packet.offset)) =
    (List.range n).map fun q => (tr.turn p.layer p.slot q,tr.offset p.layer p.slot q)

namespace Logged
variable {tr : Traffic} {p : Place} {log : List Flight}

theorem mem (logged : Logged tr p n log) (member : fl ∈ log) (place : fl.place = p) :
    ∃ q < n, fl.turn = tr.turn p.layer p.slot q ∧
      fl.hop.packet.offset = tr.offset p.layer p.slot q := by
  have listed : (fl.turn,fl.hop.packet.offset) ∈
      (log.filter fun fl => fl.place = p).map fun fl => (fl.turn,fl.hop.packet.offset) :=
    List.mem_map_of_mem (List.mem_filter.mpr ⟨member,decide_eq_true place⟩)
  rw [logged] at listed
  obtain ⟨q,below,same⟩ := List.mem_map.mp listed
  obtain ⟨turn,offset⟩ := Prod.mk.inj same
  exact ⟨q,List.mem_range.mp below,turn.symm,offset.symm⟩

theorem exists_mem (logged : Logged tr p n log) (below : q < n) :
    ∃ fl ∈ log, fl.place = p ∧ fl.turn = tr.turn p.layer p.slot q ∧
      fl.hop.packet.offset = tr.offset p.layer p.slot q := by
  have listed : (tr.turn p.layer p.slot q,tr.offset p.layer p.slot q) ∈
      (List.range n).map fun q => (tr.turn p.layer p.slot q,tr.offset p.layer p.slot q) :=
    List.mem_map_of_mem (List.mem_range.mpr below)
  rw [← logged] at listed
  obtain ⟨fl,found,same⟩ := List.mem_map.mp listed
  obtain ⟨member,place⟩ := List.mem_filter.mp found
  obtain ⟨turn,offset⟩ := Prod.mk.inj same
  exact ⟨fl,member,of_decide_eq_true place,turn,offset⟩

theorem length (logged : Logged tr p n log) :
    (log.filter fun fl => fl.place = p).length = n := by
  have lengths := congrArg List.length logged
  simpa using lengths

theorem append_one {new : List Flight} {owner : Nat} (logged : Logged tr p n log)
    (here : new.filter (fun fl => fl.place = p) = [tr.flight p n owner]) :
    Logged tr p (n + 1) (log ++ new) := by
  unfold Logged at logged ⊢
  rw [List.filter_append,here,List.map_append,logged,List.range_succ,List.map_append]
  rfl

theorem snoc (logged : Logged tr p n log) (owner : Nat) :
    Logged tr p (n + 1) (log ++ [tr.flight p n owner]) :=
  logged.append_one (show _ = [tr.flight p n owner] by simp [tr.flight_place])

theorem append_other {new : List Flight} (logged : Logged tr p n log)
    (others : ∀ fl ∈ new, fl.place ≠ p) : Logged tr p n (log ++ new) := by
  have none : new.filter (fun fl => fl.place = p) = [] :=
    List.filter_eq_nil_iff.mpr fun fl member => by simpa using others fl member
  unfold Logged at logged ⊢
  rw [List.filter_append,none,List.append_nil]
  exact logged

theorem step {lad : Ladders} {ladder : Ladder Nat Nat} (mk : Nat → Link)
    (count : Ladder Nat Nat → Nat → Nat) (injective : Function.Injective mk)
    (logged : ∀ m ∈ tr.active, ∀ i < tr.cfg.numSlots, ∀ v ∈ (tr.tree m.1).workers,
      Logged tr ⟨m,i,mk v⟩ (count (lad m i) v) log)
    (others : ∀ v, v ≠ w → count ladder v = count (lad l s) v)
    (grown : count ladder w = count (lad l s) w + 1) (owner : Nat) :
    ∀ m ∈ tr.active, ∀ i < tr.cfg.numSlots, ∀ v ∈ (tr.tree m.1).workers,
      Logged tr ⟨m,i,mk v⟩ (count (lad.set l s ladder m i) v)
        (log ++ [tr.flight ⟨l,s,mk w⟩ (count (lad l s) w) owner]) := by
  intro m active i slot v worker
  by_cases here : (m = l ∧ i = s) ∧ v = w
  · obtain ⟨⟨rfl,rfl⟩,rfl⟩ := here
    rw [Ladders.set_same,grown]
    exact (logged m active i slot v worker).snoc owner
  · have same : count (lad.set l s ladder m i) v = count (lad m i) v := by
      by_cases slot : m = l ∧ i = s
      · obtain ⟨rfl,rfl⟩ := slot
        rw [Ladders.set_same]
        exact others v fun same => here ⟨⟨rfl,rfl⟩,same⟩
      · rw [Ladders.set_other _ _ slot]
    rw [same]
    refine (logged m active i slot v worker).append_other fun fl member equal => here ?_
    rw [List.mem_singleton.mp member,tr.flight_place] at equal
    obtain ⟨layer,slot,link⟩ := Place.mk.inj equal
    exact ⟨⟨layer.symm,slot.symm⟩,(injective link).symm⟩

end Logged

structure Flow (tr : Traffic) (exact : Prop) (lad : Ladders) (f : Fabric) : Prop where
  wired : ∀ l ∈ tr.active, Wired (tr.tree l.1) l.1 f.net
  coreId : f.net.core.id = tr.coreId
  allocated : ∀ l ∈ tr.active, f.objs.numWorkersAllocated l.1 = (tr.tree l.1).workers.length
  ordered : ∀ l ∈ tr.active, ∀ s < tr.cfg.numSlots, (lad l s).Ordered (tr.tree l.1).shape
  level : ∀ l ∈ tr.active, (tr.tree l.1).flat = true → ∀ s < tr.cfg.numSlots,
    ∀ t ∈ (tr.tree l.1).tors, (lad l s).merged t ≤ (lad l s).relayed t
  links : Links tr exact f.begun lad.low (lad.high tr) f.inflight
  posts : ∀ l ∈ tr.active, ∀ s < tr.cfg.numSlots, ∀ x, (tr.tree l.1).IsStation x →
    Post tr exact l s ((tr.tree l.1).children x) ((lad l s).cnt x) ((lad l s).own x)
      (f.cleaned x l) (f.net.switch x)
  senders : ∀ l ∈ tr.active, ∀ w ∈ (tr.tree l.1).workers,
    Sender tr l (f.begun (l.ref w)) (f.done (l.ref w)) (fun s => (lad l s).sent w)
      (fun s => (lad l s).got w) ((f.net.worker w).received (l.cut tr.cfg))
  expected : ∀ l ∈ tr.active, ∀ w ∈ (tr.tree l.1).workers, 0 < f.begun (l.ref w) →
    (f.objs.tensor (l.ref w)).numPktsExpected = tr.pkts l
  sentProper : ∀ fl ∈ f.sent, tr.Sends fl.place
  gotProper : ∀ fl ∈ f.got, tr.Receives fl.place
  sentLog : ∀ l ∈ tr.active, ∀ s < tr.cfg.numSlots, ∀ w ∈ (tr.tree l.1).workers,
    Logged tr ⟨l,s,.up w⟩ ((lad l s).sent w) f.sent
  gotLog : ∀ l ∈ tr.active, ∀ s < tr.cfg.numSlots, ∀ w ∈ (tr.tree l.1).workers,
    Logged tr ⟨l,s,.down w⟩ ((lad l s).got w) f.got

theorem Tree.IsStation.ne_worker {tree : Tree} (station : tree.IsStation x) (w : Nat) :
    x ≠ .worker w := by
  rintro rfl
  exact station

namespace Flow
variable {tr : Traffic} {exact : Prop} {lad : Ladders} {f : Fabric}

theorem sent_of_pending (flow : Flow tr exact lad f) (proper : tr.Proper ⟨l,s,k⟩)
    (pending : k.low (lad l s) < k.high (tr.tree l.1) (lad l s)) :
    ∃ w ∈ (tr.tree l.1).workers, k.low (lad l s) < (lad l s).sent w := by
  obtain ⟨active,slot,valid⟩ := proper
  have ordered := flow.ordered l active s slot
  cases k with
  | up w => exact ⟨w,valid,pending⟩
  | rise t =>
    obtain ⟨w,worker,rfl⟩ := ((tr.tree l.1).involved t).mp valid.1
    have merged := ordered.merged_le w worker
    have counted := ordered.counted_le w worker
    exact ⟨w,worker,Nat.lt_of_lt_of_le pending (merged.trans counted)⟩
  | fall t =>
    obtain ⟨w,worker,rfl⟩ := ((tr.tree l.1).involved t).mp valid.1
    have reduced := ordered.reduced_le _ valid.1
    have joined := ordered.joined_le _ valid.1
    have merged := ordered.merged_le w worker
    have counted := ordered.counted_le w worker
    exact ⟨w,worker,Nat.lt_of_lt_of_le pending
      (reduced.trans (joined.trans (merged.trans counted)))⟩
  | down w =>
    have node := (tr.tree l.1).shape.maps w valid
    have relayed := ordered.relayed_le _ node
    have reduced := ordered.reduced_le _ node
    have joined := ordered.joined_le _ node
    have merged := ordered.merged_le w valid
    have counted := ordered.counted_le w valid
    exact ⟨w,valid,Nat.lt_of_lt_of_le pending
      (relayed.trans (reduced.trans (joined.trans (merged.trans counted))))⟩

/-- A packet on a hop belongs to an allreduce that its worker has begun, and its slot carries
packets. -/
theorem begun_of_pending (flow : Flow tr exact lad f) (proper : tr.Proper ⟨l,s,k⟩)
    (pending : k.low (lad l s) < k.high (tr.tree l.1) (lad l s)) :
    ∃ w ∈ (tr.tree l.1).workers, k.low (lad l s) < f.begun (l.ref w) * tr.rounds l s := by
  obtain ⟨w,worker,sent⟩ := flow.sent_of_pending proper pending
  have count : (lad l s).sent w = min _ _ :=
    (flow.senders l proper.1 w worker).sent s proper.2.1
  exact ⟨w,worker,Nat.lt_of_lt_of_le (count ▸ sent) (Nat.min_le_right _ _)⟩

theorem used (flow : Flow tr exact lad f) (proper : tr.Proper ⟨l,s,k⟩)
    (pending : k.low (lad l s) < k.high (tr.tree l.1) (lad l s)) : 0 < tr.rounds l s := by
  obtain ⟨w,_,below⟩ := flow.begun_of_pending proper pending
  exact Nat.pos_of_mul_pos_left (Nat.zero_lt_of_lt below)

theorem turn_lt (flow : Flow tr exact lad f) (member : fl ∈ f.inflight) :
    ∃ w ∈ (tr.tree fl.layer.1).workers, fl.turn < f.begun (fl.layer.ref w) := by
  obtain ⟨owner,_,_,stamp⟩ := flow.links.stamped fl member
  have proper := flow.links.proper fl member
  have pending := flow.links.under fl member
  rcases place : fl.place with ⟨l,s,k⟩
  rw [place] at proper pending stamp
  obtain ⟨w,worker,below⟩ := flow.begun_of_pending proper pending
  have layer : fl.layer = l := congrArg Place.layer place
  rw [layer]
  refine ⟨w,worker,?_⟩
  rw [stamp]
  exact Nat.div_lt_of_lt_mul (Nat.mul_comm _ _ ▸ below)

theorem window (flow : Flow tr exact lad f) (proper : tr.Proper ⟨l,s,k⟩) :
    k.high (tr.tree l.1) (lad l s) ≤ k.low (lad l s) + 1 := by
  obtain ⟨active,slot,valid⟩ := proper
  have ordered := flow.ordered l active s slot
  cases k with
  | up w =>
    have window := ordered.window w valid
    have got := ordered.got_le_counted (show w ∈ (tr.tree l.1).shape.leaves from valid) valid
    exact window.trans (Nat.succ_le_succ got)
  | rise t =>
    have merged := ordered.merged_near valid.1
    have relayed := ordered.relayed_le t valid.1
    have reduced := ordered.reduced_le t valid.1
    simp only [Link.high,Link.low]
    omega
  | fall t => exact ordered.reduced_near valid.1
  | down w => exact ordered.relayed_near valid

theorem set_ordered (flow : Flow tr exact lad f) {ladder : Ladder Nat Nat}
    (ordered : ladder.Ordered (tr.tree l.1).shape) :
    ∀ m ∈ tr.active, ∀ i < tr.cfg.numSlots,
      (lad.set l s ladder m i).Ordered (tr.tree m.1).shape := by
  intro m also i slot
  by_cases same : m = l ∧ i = s
  · obtain ⟨rfl,rfl⟩ := same
    rw [Ladders.set_same]
    exact ordered
  · rw [Ladders.set_other _ _ same]
    exact flow.ordered m also i slot

theorem set_level (flow : Flow tr exact lad f) {ladder : Ladder Nat Nat}
    (level : (tr.tree l.1).flat = true → ∀ t ∈ (tr.tree l.1).tors,
      ladder.merged t ≤ ladder.relayed t) :
    ∀ m ∈ tr.active, (tr.tree m.1).flat = true → ∀ i < tr.cfg.numSlots,
      ∀ t ∈ (tr.tree m.1).tors,
        (lad.set l s ladder m i).merged t ≤ (lad.set l s ladder m i).relayed t := by
  intro m also flat i slot
  by_cases same : m = l ∧ i = s
  · obtain ⟨rfl,rfl⟩ := same
    rw [Ladders.set_same]
    exact level flat
  · rw [Ladders.set_other _ _ same]
    exact flow.level m also flat i slot

structure Switched (f f' : Fabric) (x : Node) (sw : Switch) : Prop where
  net : f'.net = f.net.setSwitch x sw
  objs : f'.objs = f.objs
  begun : f'.begun = f.begun
  done : f'.done = f.done
  sent : f'.sent = f.sent
  got : f'.got = f.got
  cleaned : f'.cleaned = f.cleaned

/-- A switch has changed its entries for one slot of one layer, and the progress of the slot
with them. -/
theorem switched (flow : Flow tr exact lad f) {f' : Fabric} {x : Node} {sw : Switch}
    (change : Switched f f' x sw) (config : sw.config = (f.net.switch x).config)
    (active : l ∈ tr.active) (station : (tr.tree l.1).IsStation x) {ladder : Ladder Nat Nat}
    (frame : ∀ m ∈ tr.active, ∀ i, ¬(m = l ∧ i = s) → ∀ v,
      sw.count (m.cut tr.cfg) (i,v) = (f.net.switch x).count (m.cut tr.cfg) (i,v) ∧
        sw.seen (m.cut tr.cfg) (i,v) = (f.net.switch x).seen (m.cut tr.cfg) (i,v))
    (ordered : ladder.Ordered (tr.tree l.1).shape)
    (level : (tr.tree l.1).flat = true → ∀ t ∈ (tr.tree l.1).tors,
      ladder.merged t ≤ ladder.relayed t)
    (sent : ladder.sent = (lad l s).sent) (got : ladder.got = (lad l s).got)
    (here : Post tr exact l s ((tr.tree l.1).children x) (ladder.cnt x) (ladder.own x)
      (f.cleaned x l) sw)
    (elsewhere : ∀ y, y ≠ x → (tr.tree l.1).IsStation y →
      (∀ d ∈ (tr.tree l.1).children y, ladder.cnt y d = (lad l s).cnt y d) ∧
        ladder.own y = (lad l s).own y)
    (links : Links tr exact f.begun (lad.set l s ladder).low ((lad.set l s ladder).high tr)
      f'.inflight) :
    Flow tr exact (lad.set l s ladder) f' where
  wired m also := by
    rw [change.net]
    exact (flow.wired m also).of_config (Network.setSwitch_tor_config _ _ _ config)
      (Network.setSwitch_core_config _ _ _ config) fun w => by rw [Network.setSwitch_worker]
  coreId := by
    rw [change.net]
    exact (congrArg Switch.id (Network.setSwitch_core_config _ _ _ config)).trans flow.coreId
  allocated m also := by rw [change.objs]; exact flow.allocated m also
  ordered := flow.set_ordered ordered
  level := flow.set_level level
  links := by rw [change.begun]; exact links
  posts m also i slot y reduces := by
    rw [change.net,change.cleaned]
    rcases eq_or_ne y x with rfl | away
    · rw [Network.switch_setSwitch_self _ _ _ station.ne_worker]
      by_cases same : m = l ∧ i = s
      · obtain ⟨rfl,rfl⟩ := same
        rw [Ladders.set_same]
        exact here
      · rw [Ladders.set_other _ _ same]
        exact (flow.posts m also i slot y reduces).frame
          (fun v => (frame m also i same v).1) (fun v => (frame m also i same v).2)
    · rw [Network.switch_setSwitch_other _ _ _ away reduces.ne_worker]
      have before := flow.posts m also i slot y reduces
      by_cases same : m = l ∧ i = s
      · obtain ⟨rfl,rfl⟩ := same
        obtain ⟨cnt,own⟩ := elsewhere y away reduces
        rw [Ladders.set_same,own]
        exact before.congr cnt
      · rw [Ladders.set_other _ _ same]
        exact before
  senders m also w worker := by
    rw [change.begun,change.done,change.net,Network.setSwitch_worker]
    simp only [Ladders.set_field Ladder.sent sent,Ladders.set_field Ladder.got got]
    exact flow.senders m also w worker
  expected m also w worker := by
    rw [change.begun,change.objs]
    exact flow.expected m also w worker
  sentProper := by rw [change.sent]; exact flow.sentProper
  gotProper := by rw [change.got]; exact flow.gotProper
  sentLog m also i slot w worker := by
    rw [change.sent,Ladders.set_field Ladder.sent sent]
    exact flow.sentLog m also i slot w worker
  gotLog m also i slot w worker := by
    rw [change.got,Ladders.set_field Ladder.got got]
    exact flow.gotLog m also i slot w worker

theorem atSwitch_switched (cfg : Config) (f : Fabric) (fl : Flight) :
    Switched f (f.atSwitch cfg fl) fl.hop.dest
      ((f.net.switch fl.hop.dest).receivePacket cfg fl.hop.packet).switch :=
  ⟨rfl,rfl,rfl,rfl,rfl,rfl,rfl⟩

theorem switch_frame (sound : tr.Sound) (sw : Switch) {p : Place} (mine : p.layer ∈ tr.active)
    (q owner : Nat) :
    ∀ m ∈ tr.active, ∀ i, ¬(m = p.layer ∧ i = p.slot) → ∀ v,
      let after := (sw.receivePacket tr.cfg (tr.flight p q owner).hop.packet).switch
      after.count (m.cut tr.cfg) (i,v) = sw.count (m.cut tr.cfg) (i,v) ∧
        after.seen (m.cut tr.cfg) (i,v) = sw.seen (m.cut tr.cfg) (i,v) := by
  intro m also i other v
  refine Switch.receive_frame tr.cfg sw _ (fun same => other ⟨?_,same.2⟩) v
  exact sound.apart m also p.layer mine same.1

section switches
variable (flow : Flow tr exact lad f) (active : l ∈ tr.active)
include flow active

theorem updates (station : (tr.tree l.1).IsStation x) :
    (f.net.switch x).numUpdatesForJob.get l.1 = ((tr.tree l.1).children x).length := by
  have wired := flow.wired l active
  cases x with
  | tor t => exact wired.torUpdates t station
  | core => exact wired.coreUpdates station
  | worker w => cases station

theorem tor_multicast (inside : t ∈ (tr.tree l.1).tors) (k : Link) (s q owner : Nat) :
    Fabric.fly (tr.turn l s q)
        ((f.net.tor t).multicastDownward (tr.flight ⟨l,s,k⟩ q owner).hop.packet) =
      ((tr.tree l.1).under t).map fun w => tr.flight ⟨l,s,.down w⟩ q owner := by
  have wired := flow.wired l active
  rw [Switch.multicastDownward,show (tr.flight ⟨l,s,k⟩ q owner).hop.packet.jobId = l.1 from rfl,
    wired.torDownward t inside,Fabric.fly,List.map_map]
  apply List.map_congr_left
  intro w member
  have above := ((tr.tree l.1).mem_under.mp member).2
  simp [Switch.downwardNode,wired.torLayer t inside,wired.torId t inside,Traffic.flight,
    Link.dest,Link.upward,Link.source,above]

theorem onward_sent (station : (tr.tree l.1).IsStation x) (k : Link) (s q owner : Nat) :
    let p := (tr.flight ⟨l,s,k⟩ q owner).hop.packet
    Fabric.fly (tr.turn l s q)
      (if (f.net.switch x).topLevelForJob.get l.1 then (f.net.switch x).multicastDownward p
        else [(f.net.switch x).unicastUpward p]) =
      ((tr.tree l.1).onward x).map fun j => tr.flight ⟨l,s,j⟩ q owner := by
  intro p
  have wired := flow.wired l active
  cases x with
  | tor t =>
    have top : (f.net.switch (.tor t)).topLevelForJob.get l.1 = (tr.tree l.1).flat :=
      wired.torTop t station
    have name : (f.net.switch (.tor t)).id = t := wired.torId t station
    rw [top,Tree.onward]
    split
    · rw [List.map_map]
      exact flow.tor_multicast active station k s q owner
    · simp [Switch.unicastUpward,name,Fabric.fly,p,Traffic.flight,Link.dest,Link.upward,
        Link.source]
  | core =>
    have top : (f.net.switch .core).topLevelForJob.get l.1 = true := wired.coreTop station
    have layer : (f.net.switch .core).layer = 1 := wired.coreLayer
    have name : (f.net.switch .core).id = tr.coreId := flow.coreId
    have below : (f.net.switch .core).downwardIdsForJob.get p.jobId = (tr.tree l.1).tors :=
      wired.coreDownward station
    rw [if_pos top,Switch.multicastDownward,below,Fabric.fly,Tree.onward,List.map_map,List.map_map]
    apply List.map_congr_left
    intro t member
    simp [Switch.downwardNode,layer,name,p,Traffic.flight,Link.dest,Link.upward,Link.source]
  | worker w => cases station

end switches

section links
variable {ladder : Ladder Nat Nat} {inflight : List Flight}

theorem climb_links (flow : Flow tr exact lad f) {k : Link} (climbs : k.Climbs (tr.tree l.1) x c)
    (member : fl ∈ f.inflight) (place : fl.place = ⟨l,s,k⟩) :
    let lad' := lad.set l s ((lad l s).climb x c)
    Links tr exact f.begun lad'.low (lad'.high tr) (f.inflight.erase fl) := by
  intro lad'
  have proper : tr.Proper ⟨l,s,k⟩ := place ▸ flow.links.proper fl member
  refine (flow.links.take member (place ▸ flow.window proper)).congr
    (fun p _ => place ▸ Ladders.low_take (Ladder.climb_low climbs) p) ?_
  · rintro ⟨m,i,j⟩ _
    by_cases here : m = l ∧ i = s
    · obtain ⟨rfl,rfl⟩ := here
      rw [Ladders.high_here,Ladder.climb_high climbs]
      rfl
    · exact Ladders.high_elsewhere _ _ _ here j

theorem send_links {low low' high high' : Place → Nat}
    (links : Links tr exact begun low high inflight)
    (active : l ∈ tr.active) (slot : s < tr.cfg.numSlots) (hops : List Link)
    (distinct : hops.Nodup) (valid : ∀ j ∈ hops, j.Valid (tr.tree l.1))
    (empty : ∀ j ∈ hops, low ⟨l,s,j⟩ = q ∧ high ⟨l,s,j⟩ = q)
    (lows : ∀ p, tr.Proper p → low' p = low p)
    (highs : ∀ j, j.Valid (tr.tree l.1) →
      high' ⟨l,s,j⟩ = if j ∈ hops then high ⟨l,s,j⟩ + 1 else high ⟨l,s,j⟩)
    (others : ∀ m i j, ¬(m = l ∧ i = s) → high' ⟨m,i,j⟩ = high ⟨m,i,j⟩)
    (worker : owner ∈ (tr.tree l.1).workers) (launched : 0 < begun (l.ref owner)) :
    Links tr exact begun low' high'
      (inflight ++ hops.map fun j => tr.flight ⟨l,s,j⟩ q owner) := by
  have flights : (hops.map fun j => (⟨l,s,j⟩ : Place)).map
      (fun p => tr.flight p (low p) owner) = hops.map fun j => tr.flight ⟨l,s,j⟩ q owner := by
    rw [List.map_map]
    apply List.map_congr_left
    intro j member
    simp only [Function.comp_apply,(empty j member).1]
  suffices sent : Links tr exact begun low high'
      (inflight ++ (hops.map fun j => (⟨l,s,j⟩ : Place)).map fun p => tr.flight p (low p) owner) by
    rw [flights] at sent
    exact sent.congr lows fun _ _ => rfl
  refine links.send _ (distinct.map fun _ _ same => congrArg Place.link same) ?_ ?_ ?_ ?_ ?_
  · intro p member
    obtain ⟨j,hop,rfl⟩ := List.mem_map.mp member
    exact ⟨active,slot,valid j hop⟩
  · intro p member
    obtain ⟨j,hop,rfl⟩ := List.mem_map.mp member
    rw [(empty j hop).1,(empty j hop).2]
  · intro p member
    obtain ⟨j,hop,rfl⟩ := List.mem_map.mp member
    rw [highs j (valid j hop),if_pos hop]
  · rintro ⟨m,i,j⟩ proper absent
    by_cases here : m = l ∧ i = s
    · obtain ⟨rfl,rfl⟩ := here
      rw [highs j proper.2.2,if_neg fun hop => absent (List.mem_map_of_mem hop)]
    · exact others m i j here
  · intro p member
    obtain ⟨j,_,rfl⟩ := List.mem_map.mp member
    exact ⟨worker,launched⟩

/-- The counts of places after a change of one ladder that keeps the ends of the hops. -/
theorem low_of_set (lows : ∀ j, j.Valid (tr.tree l.1) → Link.low ladder' j = Link.low ladder j)
    (p : Place) (proper : tr.Proper p) : (lad.set l s ladder').low p = (lad.set l s ladder).low p := by
  obtain ⟨m,i,j⟩ := p
  by_cases here : m = l ∧ i = s
  · obtain ⟨rfl,rfl⟩ := here
    rw [Ladders.low_here,Ladders.low_here]
    exact lows j proper.2.2
  · rw [Ladders.low_elsewhere _ _ here,Ladders.low_elsewhere _ _ here]

end links

section contribute
variable {k : Link} {x : Node} {c q owner : Nat} {sw : Switch} {f' : Fabric}

theorem climb_step (flow : Flow tr exact lad f) (active : l ∈ tr.active)
    (slot : s < tr.cfg.numSlots) (climbs : k.Climbs (tr.tree l.1) x c)
    (member : fl ∈ f.inflight) (place : fl.place = ⟨l,s,k⟩) (change : Switched f f' x sw)
    (config : sw.config = (f.net.switch x).config)
    (frame : ∀ m ∈ tr.active, ∀ i, ¬(m = l ∧ i = s) → ∀ v,
      sw.count (m.cut tr.cfg) (i,v) = (f.net.switch x).count (m.cut tr.cfg) (i,v) ∧
        sw.seen (m.cut tr.cfg) (i,v) = (f.net.switch x).seen (m.cut tr.cfg) (i,v))
    (pending : k.low (lad l s) < k.high (tr.tree l.1) (lad l s))
    (post : Post tr exact l s ((tr.tree l.1).children x)
      (Function.update ((lad l s).cnt x) c ((lad l s).cnt x c + 1)) ((lad l s).own x)
      (f.cleaned x l) sw)
    (inflight : f'.inflight = f.inflight.erase fl) :
    Flow tr exact (lad.set l s ((lad l s).climb x c)) f' := by
  obtain ⟨sent,got⟩ := Ladder.climb_sent (l := lad l s) climbs
  obtain ⟨merged,relayed⟩ := Ladder.climb_level (l := lad l s) climbs
  refine flow.switched change config active climbs.station frame
    (Ladder.climb_ordered climbs (flow.ordered l active s slot) pending) ?_ sent got ?_ ?_ ?_
  · intro flat t inside
    rw [merged,relayed]
    exact flow.level l active flat s slot t inside
  · rw [Ladder.climb_cnt climbs,Ladder.climb_own climbs]
    exact post
  · exact fun y other also => ⟨Ladder.climb_other climbs other also,Ladder.climb_own climbs y⟩
  · rw [inflight]
    exact flow.climb_links climbs member place

theorem close_step (flow : Flow tr exact lad f) (active : l ∈ tr.active)
    (slot : s < tr.cfg.numSlots) (climbs : k.Climbs (tr.tree l.1) x c)
    (member : fl ∈ f.inflight) (place : fl.place = ⟨l,s,k⟩) (change : Switched f f' x sw)
    (config : sw.config = (f.net.switch x).config)
    (frame : ∀ m ∈ tr.active, ∀ i, ¬(m = l ∧ i = s) → ∀ v,
      sw.count (m.cut tr.cfg) (i,v) = (f.net.switch x).count (m.cut tr.cfg) (i,v) ∧
        sw.seen (m.cut tr.cfg) (i,v) = (f.net.switch x).seen (m.cut tr.cfg) (i,v))
    (pending : k.low (lad l s) < k.high (tr.tree l.1) (lad l s))
    (complete : ∀ d ∈ (tr.tree l.1).children x, (lad l s).own x <
      Function.update ((lad l s).cnt x) c ((lad l s).cnt x c + 1) d)
    (post : Post tr exact l s ((tr.tree l.1).children x)
      (Function.update ((lad l s).cnt x) c ((lad l s).cnt x c + 1)) ((lad l s).own x + 1)
      (f.cleaned x l) sw)
    (worker : owner ∈ (tr.tree l.1).workers) (launched : 0 < f.begun (l.ref owner))
    (inflight : f'.inflight = f.inflight.erase fl ++
      ((tr.tree l.1).onward x).map fun j => tr.flight ⟨l,s,j⟩ ((lad l s).own x) owner) :
    Flow tr exact (lad.set l s (((lad l s).climb x c).close (tr.tree l.1) x)) f' := by
  have station := climbs.station
  obtain ⟨sent,got⟩ := Ladder.climb_sent (l := lad l s) climbs
  obtain ⟨merged,relayed⟩ := Ladder.climb_level (l := lad l s) climbs
  have climbed := Ladder.climb_ordered climbs (flow.ordered l active s slot) pending
  have own : ((lad l s).climb x c).own x = (lad l s).own x := Ladder.climb_own climbs x
  have full : ∀ d ∈ (tr.tree l.1).children x,
      ((lad l s).climb x c).own x < ((lad l s).climb x c).cnt x d := by
    rw [own,Ladder.climb_cnt climbs]
    exact complete
  refine flow.switched change config active station frame
    (Ladder.close_ordered station full climbed) ?_ ((Ladder.close_sent station).1.trans sent)
    ((Ladder.close_sent station).2.trans got) ?_ ?_ ?_
  · intro flat
    refine Ladder.close_level station flat fun t inside => ?_
    rw [merged,relayed]
    exact flow.level l active flat s slot t inside
  · rw [Ladder.close_cnt station,Ladder.close_own station,Ladder.climb_cnt climbs,own]
    exact post
  · intro y other also
    obtain ⟨cnt,closed⟩ := Ladder.close_other (l := (lad l s).climb x c) station other also
    rw [cnt,closed]
    exact ⟨Ladder.climb_other climbs other also,Ladder.climb_own climbs y⟩
  · rw [inflight,← own]
    refine send_links (flow.climb_links climbs member place) active slot _ (Tree.onward_distinct x)
      (fun j hop => Tree.onward_valid station hop) (fun j hop => ?_)
      (low_of_set fun j valid => Ladder.close_low station valid) (fun j valid => ?_)
      (fun m i j other => ?_) worker launched
    · rw [Ladders.low_here,Ladders.high_here]
      exact Ladder.onward_empty station full climbed j hop
    · rw [Ladders.high_here,Ladders.high_here]
      exact Ladder.close_high station valid
    · rw [Ladders.high_elsewhere _ _ _ other,Ladders.high_elsewhere _ _ _ other]

theorem contribute (sound : tr.Sound) (flow : Flow tr exact lad f) (member : fl ∈ f.inflight)
    (place : fl.place = ⟨l,s,k⟩) (climbs : k.Climbs (tr.tree l.1) x c)
    (timely : exact → fl.turn ≤ f.cleaned x l) :
    (∃ lad', Flow tr exact lad' (f.atSwitch tr.cfg fl)) ∧
      (exact → (f.atSwitch tr.cfg fl).shadowed = f.shadowed) := by
  obtain ⟨owner,worker,launched,stamp⟩ := flow.links.stamped fl member
  have proper := flow.links.proper fl member
  have pending := flow.links.under fl member
  rw [place] at proper pending stamp worker launched
  obtain ⟨active,slot,valid⟩ := proper
  have ordered := flow.ordered l active s slot
  have station := climbs.station
  have level := Ladder.level_of_pending climbs ordered pending
  have carried : fl = tr.flight ⟨l,s,k⟩ ((lad l s).own x) owner := by
    rw [stamp,← level,← Ladder.low_of_climbs climbs]
    rfl
  have dest : fl.hop.dest = x := by rw [carried]; exact climbs.dest
  have change := atSwitch_switched tr.cfg f fl
  have config := Switch.config_receivePacket tr.cfg (f.net.switch x) fl.hop.packet
  have frame := switch_frame sound (f.net.switch x) (p := ⟨l,s,k⟩) active ((lad l s).own x) owner
  have onward := flow.onward_sent active station k s ((lad l s).own x) owner
  have turn : fl.turn = tr.turn l s ((lad l s).own x) := by rw [carried]; rfl
  have outcome := (flow.posts l active s slot x station).receive sound active
    (Tree.children_distinct x) (Tree.children_le x) (flow.updates active station) climbs.child level
    (Ladder.cnt_near ordered station) (flow.used ⟨active,slot,valid⟩ pending)
    (fun tight => turn ▸ timely tight) climbs.upward climbs.source owner
  simp only [← carried] at frame onward outcome
  rw [dest] at change
  have inflight : (f.atSwitch tr.cfg fl).inflight = f.inflight.erase fl ++
      Fabric.fly fl.turn ((f.net.switch x).receivePacket tr.cfg fl.hop.packet).sent := by
    rw [← dest]; rfl
  have shadowed : (f.atSwitch tr.cfg fl).shadowed =
      if ((f.net.switch x).receivePacket tr.cfg fl.hop.packet).shadow then f.shadowed ++ [fl]
      else f.shadowed := by rw [← dest]; rfl
  rcases outcome with ⟨loose,_,sent,post⟩ | ⟨kept,sent,post⟩ | ⟨kept,sent,complete,post⟩
  · refine ⟨⟨lad.set l s (lad l s),?_⟩,fun tight => absurd tight loose⟩
    refine flow.switched change config active station frame ordered
      (fun flat => flow.level l active flat s slot) rfl rfl post
      (fun _ _ _ => ⟨fun _ _ => rfl,rfl⟩) ?_
    rw [Ladders.set_self,inflight,sent,show Fabric.fly fl.turn [] = [] from rfl,List.append_nil]
    exact flow.links.drop loose
  · refine ⟨⟨_,flow.climb_step active slot climbs member place change config frame pending
      (level.symm ▸ post) ?_⟩,fun _ => ?_⟩
    · rw [inflight,sent,show Fabric.fly fl.turn [] = [] from rfl,List.append_nil]
    · rw [shadowed,kept]; rfl
  · refine ⟨⟨_,flow.close_step active slot climbs member place change config frame pending
      (level.symm ▸ complete) (level.symm ▸ post) worker launched ?_⟩,fun _ => ?_⟩
    · rw [inflight,sent,turn]
      exact congrArg _ onward
    · rw [shadowed,kept]; rfl

end contribute

theorem relay (sound : tr.Sound) (flow : Flow tr exact lad f) (member : fl ∈ f.inflight)
    (place : fl.place = ⟨l,s,.fall t⟩) :
    (∃ lad', Flow tr exact lad' (f.atSwitch tr.cfg fl)) ∧
      (f.atSwitch tr.cfg fl).shadowed = f.shadowed := by
  obtain ⟨owner,worker,launched,stamp⟩ := flow.links.stamped fl member
  have proper := flow.links.proper fl member
  have pending := flow.links.under fl member
  rw [place] at proper pending stamp worker launched
  obtain ⟨active,slot,inside,tall⟩ := proper
  have ordered := flow.ordered l active s slot
  have carried : fl = tr.flight ⟨l,s,.fall t⟩ ((lad l s).relayed t) owner := stamp
  have pending : (lad l s).relayed t < (lad l s).reduced := pending
  have dest : fl.hop.dest = .tor t := by rw [carried]; rfl
  have change := atSwitch_switched tr.cfg f fl
  have config := Switch.config_receivePacket tr.cfg (f.net.switch (.tor t)) fl.hop.packet
  have frame := switch_frame sound (f.net.switch (.tor t)) (p := ⟨l,s,.fall t⟩) active
    ((lad l s).relayed t) owner
  obtain ⟨kept,sent,post⟩ := (flow.posts l active s slot (.tor t) inside).receive_result
    (fun d below => (Ladder.relay_idle ordered inside pending below).1)
    (show (Link.fall t).upward = false from rfl) ((lad l s).relayed t) owner
  simp only [← carried] at frame kept sent post
  rw [dest] at change
  have inflight : (f.atSwitch tr.cfg fl).inflight = f.inflight.erase fl ++
      ((tr.tree l.1).under t).map fun w =>
        tr.flight ⟨l,s,.down w⟩ ((lad l s).relayed t) owner := by
    rw [← flow.tor_multicast active inside (.fall t) s ((lad l s).relayed t) owner,← carried]
    have turn : fl.turn = tr.turn l s ((lad l s).relayed t) := by rw [carried]; rfl
    rw [← turn,show f.net.tor t = f.net.switch (.tor t) from rfl,← sent,← dest]
    rfl
  refine ⟨⟨lad.set l s ((lad l s).relay t),?_⟩,?_⟩
  · refine flow.switched change config active inside frame (ordered.relay pending)
      (fun flat => absurd flat (Bool.eq_false_iff.mp tall)) rfl rfl post
      (fun y _ _ => ⟨fun _ _ => congrFun (Ladder.relay_cnt t y).1 _,(Ladder.relay_cnt t y).2⟩) ?_
    have taken := flow.links.take member (place ▸ flow.window ⟨active,slot,inside,tall⟩)
    rw [inflight,show ((tr.tree l.1).under t).map (fun w =>
        tr.flight ⟨l,s,.down w⟩ ((lad l s).relayed t) owner) =
      (((tr.tree l.1).under t).map Link.down).map fun j =>
        tr.flight ⟨l,s,j⟩ ((lad l s).relayed t) owner by rw [List.map_map]; rfl]
    refine send_links taken active slot _
      (((tr.tree l.1).under_distinct t).map fun _ _ same => Link.down.inj same)
      (fun j hop => ?_) (fun j hop => ?_) ?_ (fun j valid => ?_) (fun m i j other => ?_) worker
      launched
    · obtain ⟨w,below,rfl⟩ := List.mem_map.mp hop
      exact ((tr.tree l.1).mem_under.mp below).1
    · obtain ⟨w,below,rfl⟩ := List.mem_map.mp hop
      rw [place,Function.update_of_ne fun same => by cases same]
      refine ⟨(Ladder.relay_idle ordered inside pending below).2,?_⟩
      exact congrArg (lad l s).relayed ((tr.tree l.1).mem_under.mp below).2
    · intro p _
      rw [place]
      exact Ladders.low_take (Ladder.relay_low t) p
    · rw [Ladders.high_here]
      exact Ladder.relay_high t valid
    · exact Ladders.high_elsewhere _ _ _ other j
  · have shadowed : (f.atSwitch tr.cfg fl).shadowed =
        if ((f.net.switch (.tor t)).receivePacket tr.cfg fl.hop.packet).shadow
        then f.shadowed ++ [fl] else f.shadowed := by rw [← dest]; rfl
    rw [shadowed,kept]
    rfl

end Flow
end CloudSim
