import CloudSim.FlowStep

/-! A layer joins the traffic when a round of it starts and leaves when the round has ended.
What the flow says of the other layers stays. -/
namespace CloudSim

structure Traffic.Alike (tr tr' : Traffic) (l : Layer) : Prop where
  cfg : tr'.cfg = tr.cfg
  tree : tr'.tree = tr.tree
  coreId : tr'.coreId = tr.coreId
  size : tr'.size l = tr.size l

namespace Traffic.Alike
variable {tr tr' : Traffic} {l : Layer} (alike : Alike tr tr' l)
include alike

theorem pkts : tr'.pkts l = tr.pkts l := by
  rw [Traffic.pkts,Traffic.pkts,alike.cfg,alike.size]

theorem rounds : tr'.rounds l = tr.rounds l := by
  funext s
  rw [Traffic.rounds,Traffic.rounds,alike.pkts,alike.cfg]

theorem ver : tr'.ver l = tr.ver l := by
  funext s q
  rw [Traffic.ver,Traffic.ver,alike.rounds]

theorem turn : tr'.turn l = tr.turn l := by
  funext s q
  rw [Traffic.turn,Traffic.turn,alike.rounds]

theorem offset : tr'.offset l = tr.offset l := by
  funext s q
  rw [Traffic.offset,Traffic.offset,alike.pkts,alike.cfg]

theorem arrived : tr'.arrived l = tr.arrived l := by
  funext ended got
  rw [Traffic.arrived,Traffic.arrived,alike.pkts,alike.cfg,alike.rounds]

theorem flight {s : Nat} {k : Link} : tr'.flight ⟨l,s,k⟩ = tr.flight ⟨l,s,k⟩ := by
  funext q owner
  simp only [Traffic.flight,alike.tree,alike.coreId,alike.size,alike.ver,alike.offset,alike.turn]

theorem post (post : Post tr exact l s children cnt own cleaned sw) :
    Post tr' exact l s children cnt own cleaned sw := by
  refine ⟨?_,?_,?_,?_⟩
  · simpa only [alike.cfg,alike.tree,alike.ver] using post.station
  · simpa only [alike.cfg,alike.ver,alike.rounds] using post.seen
  · simpa only [alike.rounds] using post.since
  · simpa only [alike.rounds] using post.timely

theorem sender (sender : Sender tr l begun ended sent got received) :
    Sender tr' l begun ended sent got received := by
  refine ⟨sender.ended_le,sender.begun_le,?_,?_,?_,?_,?_⟩
  · simpa only [alike.cfg,alike.rounds] using sender.base
  · simpa only [alike.cfg,alike.rounds] using sender.top
  · simpa only [alike.cfg,alike.rounds] using sender.sent
  · simpa only [alike.cfg,alike.rounds] using sender.opened
  · simpa only [alike.arrived] using sender.received

theorem logged {k : Link} {log log' : List Flight} (logged : Logged tr ⟨l,s,k⟩ n log)
    (same : log'.filter (fun fl => fl.layer = l) = log.filter fun fl => fl.layer = l) :
    Logged tr' ⟨l,s,k⟩ n log' := by
  have here (list : List Flight) : (list.filter fun fl => fl.place = ⟨l,s,k⟩) =
      (list.filter fun fl => fl.layer = l).filter fun fl => fl.place = ⟨l,s,k⟩ := by
    rw [List.filter_filter]
    apply List.filter_congr
    intro fl _
    rw [Bool.eq_iff_iff,Bool.and_eq_true,decide_eq_true_iff,decide_eq_true_iff]
    exact ⟨fun place => ⟨place,congrArg Place.layer place⟩,fun both => both.1⟩
  unfold Logged at logged ⊢
  rw [here,same,← here]
  simpa only [alike.turn,alike.offset] using logged

end Traffic.Alike

namespace Flow
variable {tr tr' : Traffic} {exact : Prop} {lad lad' : Ladders} {f f' : Fabric}

/-- A history that has not reached the place. -/
theorem unlogged {log : List Flight} (absent : ∀ fl ∈ log, fl.place ≠ p) :
    Logged tr p 0 log := by
  have empty : log.filter (fun fl => fl.place = p) = [] :=
    List.filter_eq_nil_iff.mpr fun fl member => by simpa using absent fl member
  rw [Logged,empty]
  rfl

structure Kept (tr tr' : Traffic) (lad lad' : Ladders) (f f' : Fabric) (m : Layer) : Prop where
  active : m ∈ tr.active
  size : tr'.size m = tr.size m
  ladder : lad' m = lad m
  begun : ∀ w, f'.begun (m.ref w) = f.begun (m.ref w)
  done : ∀ w, f'.done (m.ref w) = f.done (m.ref w)
  cleaned : ∀ x, f'.cleaned x m = f.cleaned x m
  expected : ∀ w, (f'.objs.tensor (m.ref w)).numPktsExpected =
    (f.objs.tensor (m.ref w)).numPktsExpected
  sent : f'.sent.filter (fun fl => fl.layer = m) = f.sent.filter fun fl => fl.layer = m
  got : f'.got.filter (fun fl => fl.layer = m) = f.got.filter fun fl => fl.layer = m

/-- A layer without history and entries. -/
structure Joins (tr : Traffic) (lad : Ladders) (f : Fabric) (m : Layer) : Prop where
  ladder : lad m = fun _ => Ladder.ground
  begun : ∀ w ∈ (tr.tree m.1).workers, f.begun (m.ref w) = 0
  done : ∀ w ∈ (tr.tree m.1).workers, f.done (m.ref w) = 0
  cleaned : ∀ x, (tr.tree m.1).IsStation x → f.cleaned x m = 0
  counts : ∀ x, (tr.tree m.1).IsStation x → ∀ key, (f.net.switch x).count (m.cut tr.cfg) key = 0
  seen : ∀ x, (tr.tree m.1).IsStation x → ∀ key, (f.net.switch x).seen (m.cut tr.cfg) key = ∅
  received : ∀ w ∈ (tr.tree m.1).workers, (f.net.worker w).received (m.cut tr.cfg) = ∅
  sent : ∀ fl ∈ f.sent, fl.layer ≠ m
  got : ∀ fl ∈ f.got, fl.layer ≠ m

/-- A change of the layers in use that moves no packet and no entry. -/
structure Shift (tr tr' : Traffic) (lad lad' : Ladders) (f f' : Fabric) : Prop where
  cfg : tr'.cfg = tr.cfg
  tree : tr'.tree = tr.tree
  coreId : tr'.coreId = tr.coreId
  records : HierarchicalTopology.SameRecords f.net f'.net
  core : f'.net.core.id = f.net.core.id
  wired : ∀ m ∈ tr'.active, Wired (tr'.tree m.1) m.1 f'.net
  allocated : ∀ m ∈ tr'.active,
    f'.objs.numWorkersAllocated m.1 = (tr'.tree m.1).workers.length
  inflight : f'.inflight = f.inflight
  flying : ∀ fl ∈ f.inflight, fl.layer ∈ tr'.active ∧ Kept tr tr' lad lad' f f' fl.layer
  layers : ∀ m ∈ tr'.active, Kept tr tr' lad lad' f f' m ∨ Joins tr' lad' f' m
  sent : ∀ fl ∈ f'.sent, fl ∈ f.sent ∧ fl.layer ∈ tr'.active
  got : ∀ fl ∈ f'.got, fl ∈ f.got ∧ fl.layer ∈ tr'.active

namespace Shift

theorem alike (shift : Shift tr tr' lad lad' f f') (kept : Kept tr tr' lad lad' f f' m) :
    tr.Alike tr' m := ⟨shift.cfg,shift.tree,shift.coreId,kept.size⟩

theorem proper (shift : Shift tr tr' lad lad' f f') {p : Place} (proper : tr.Proper p)
    (active : p.layer ∈ tr'.active) : tr'.Proper p := by
  obtain ⟨_,slot,valid⟩ := proper
  refine ⟨active,?_,?_⟩
  · rw [shift.cfg]; exact slot
  · rw [shift.tree]; exact valid

theorem low (kept : Kept tr tr' lad lad' f f' l) (s : Nat) (k : Link) :
    lad'.low ⟨l,s,k⟩ = lad.low ⟨l,s,k⟩ :=
  congrArg (fun ladders : Nat → Ladder Nat Nat => k.low (ladders s)) kept.ladder

theorem high (shift : Shift tr tr' lad lad' f f') (kept : Kept tr tr' lad lad' f f' l) (s : Nat)
    (k : Link) : lad'.high tr' ⟨l,s,k⟩ = lad.high tr ⟨l,s,k⟩ := by
  simp only [Ladders.high,shift.tree,kept.ladder]

theorem links (shift : Shift tr tr' lad lad' f f')
    (links : Links tr exact f.begun lad.low (lad.high tr) f.inflight) :
    Links tr' exact f'.begun lad'.low (lad'.high tr') f'.inflight := by
  rw [shift.inflight]
  refine ⟨links.distinct,fun fl member => ?_,fun fl member => ?_,fun fl member => ?_,
    fun tight p proper pending => ?_⟩
  · exact shift.proper (links.proper fl member) (shift.flying fl member).1
  · have kept := (shift.flying fl member).2
    have under := links.under fl member
    rcases place : fl.place with ⟨l,s,k⟩
    rw [show fl.layer = l from congrArg Place.layer place] at kept
    rw [place] at under
    rw [low kept,shift.high kept]
    exact under
  · have kept := (shift.flying fl member).2
    obtain ⟨owner,worker,launched,stamp⟩ := links.stamped fl member
    rcases place : fl.place with ⟨l,s,k⟩
    rw [show fl.layer = l from congrArg Place.layer place] at kept
    rw [place] at worker launched stamp
    refine ⟨owner,?_,?_,?_⟩
    · rw [shift.tree]; exact worker
    · rw [kept.begun]; exact launched
    · rw [(shift.alike kept).flight,low kept]; exact stamp
  · obtain ⟨l,s,k⟩ := p
    rcases shift.layers l proper.1 with kept | joins
    · rw [low kept,shift.high kept] at pending
      refine links.full tight _ ⟨kept.active,?_,?_⟩ pending
      · have slot := proper.2.1
        rwa [shift.cfg] at slot
      · have valid := proper.2.2
        rwa [shift.tree] at valid
    · simp only [Ladders.low,Ladders.high,joins.ladder] at pending
      cases k <;> exact absurd pending (Nat.lt_irrefl 0)

end Shift
theorem shift (sound : tr'.Sound) (flow : Flow tr exact lad f)
    (shift : Shift tr tr' lad lad' f f') : Flow tr' exact lad' f' where
  wired := shift.wired
  coreId := by rw [shift.core,shift.coreId]; exact flow.coreId
  allocated := shift.allocated
  ordered m also s slot := by
    rw [shift.cfg] at slot
    rcases shift.layers m also with kept | joins
    · rw [kept.ladder,shift.tree]
      exact flow.ordered m kept.active s slot
    · rw [joins.ladder]
      exact Ladder.ground_ordered _
  level m also flat s slot t inside := by
    rw [shift.cfg] at slot
    rw [shift.tree] at flat inside
    rcases shift.layers m also with kept | joins
    · rw [kept.ladder]
      exact flow.level m kept.active flat s slot t inside
    · rw [joins.ladder]
      exact Nat.le_refl 0
  links := shift.links flow.links
  posts m also s slot x station := by
    rcases shift.layers m also with kept | joins
    · rw [shift.cfg] at slot
      rw [shift.tree] at station
      rw [kept.ladder,kept.cleaned,shift.tree]
      exact (shift.alike kept).post ((flow.posts m kept.active s slot x station).frame
        (fun v => count_of_records shift.records x _ _) fun v => seen_of_records shift.records x _ _)
    · have zero : (Ladder.ground : Ladder Nat Nat).own x = 0 := by cases x <;> rfl
      have zeros : (Ladder.ground : Ladder Nat Nat).cnt x = fun _ => 0 := by cases x <;> rfl
      rw [joins.ladder,joins.cleaned x station,zero,zeros]
      exact Post.ground (Tree.children_nonempty station) (fun v => joins.counts x station (s,v))
        fun v => joins.seen x station (s,v)
  senders m also w worker := by
    rcases shift.layers m also with kept | joins
    · rw [shift.tree] at worker
      rw [kept.ladder,kept.begun,kept.done,shift.cfg,received_of_records shift.records]
      exact (shift.alike kept).sender (flow.senders m kept.active w worker)
    · rw [joins.ladder,joins.begun w worker,joins.done w worker,joins.received w worker]
      exact Sender.ground sound m
  expected m also w worker begun := by
    rcases shift.layers m also with kept | joins
    · rw [kept.begun] at begun
      rw [shift.tree] at worker
      rw [kept.expected,(shift.alike kept).pkts]
      exact flow.expected m kept.active w worker begun
    · rw [joins.begun w worker] at begun
      exact absurd begun (Nat.lt_irrefl 0)
  sentProper fl member := by
    obtain ⟨old,active⟩ := shift.sent fl member
    exact ⟨shift.proper (flow.sentProper fl old).1 active,(flow.sentProper fl old).2⟩
  gotProper fl member := by
    obtain ⟨old,active⟩ := shift.got fl member
    exact ⟨shift.proper (flow.gotProper fl old).1 active,(flow.gotProper fl old).2⟩
  sentLog m also s slot w worker := by
    rcases shift.layers m also with kept | joins
    · rw [shift.cfg] at slot
      rw [shift.tree] at worker
      rw [kept.ladder]
      exact (shift.alike kept).logged (flow.sentLog m kept.active s slot w worker) kept.sent
    · rw [joins.ladder]
      exact unlogged fun fl member place => joins.sent fl member (congrArg Place.layer place)
  gotLog m also s slot w worker := by
    rcases shift.layers m also with kept | joins
    · rw [shift.cfg] at slot
      rw [shift.tree] at worker
      rw [kept.ladder]
      exact (shift.alike kept).logged (flow.gotLog m kept.active s slot w worker) kept.got
    · rw [joins.ladder]
      exact unlogged fun fl member place => joins.got fl member (congrArg Place.layer place)

/-- Objects and placement change, and no packet, entry or history. -/
theorem renew (sound : tr.Sound) (flow : Flow tr exact lad f) {net : Network} {objs : Objects}
    (records : HierarchicalTopology.SameRecords f.net net) (core : net.core.id = f.net.core.id)
    (wired : ∀ m ∈ tr.active, Wired (tr.tree m.1) m.1 net)
    (allocated : objs.numWorkersAllocated = f.objs.numWorkersAllocated)
    (expected : ∀ r, (objs.tensor r).numPktsExpected = (f.objs.tensor r).numPktsExpected) :
    Flow tr exact lad { f with net := net, objs := objs } := by
  have kept (m : Layer) (active : m ∈ tr.active) :
      Kept tr tr lad lad f { f with net := net, objs := objs } m :=
    ⟨active,rfl,rfl,fun _ => rfl,fun _ => rfl,fun _ => rfl,fun _ => expected _,rfl,rfl⟩
  have sent (fl : Flight) (member : fl ∈ f.sent) : fl.layer ∈ tr.active :=
    (flow.sentProper fl member).1.1
  have got (fl : Flight) (member : fl ∈ f.got) : fl.layer ∈ tr.active :=
    (flow.gotProper fl member).1.1
  have flying (fl : Flight) (member : fl ∈ f.inflight) : fl.layer ∈ tr.active :=
    (flow.links.proper fl member).1
  exact flow.shift sound
    { cfg := rfl, tree := rfl, coreId := rfl, records := records, core := core, wired := wired,
      allocated := fun m active => by rw [allocated]; exact flow.allocated m active,
      inflight := rfl, flying := fun fl member => ⟨flying fl member,kept _ (flying fl member)⟩,
      layers := fun m active => Or.inl (kept m active),
      sent := fun fl member => ⟨member,sent fl member⟩,
      got := fun fl member => ⟨member,got fl member⟩ }

end Flow
end CloudSim
