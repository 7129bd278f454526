import CloudSim.FlowStep

/-! The entries that switches and workers hold for a key: only the receiver of a packet gets one,
and only for the packet's tensor, until the cleaner of the switch erases it. No packet of an
allreduce reaches a switch below which a worker has received the allreduce completely. -/
namespace CloudSim

namespace Tree
variable {tree : Tree}

def cleanerOf (tree : Tree) : Node → Nat
  | .tor t => tree.cleaner t
  | .core => tree.cleaner tree.upperCleaner
  | .worker w => w

theorem cleanerOf_mem (station : tree.IsStation x) : tree.cleanerOf x ∈ tree.workers := by
  cases x with
  | tor t => exact (tree.mem_under.mp (tree.cleaner_mem station)).1
  | core => exact (tree.mem_under.mp (tree.cleaner_mem (tree.upperCleaner_mem station))).1
  | worker w => cases station

theorem cleans_iff (station : tree.IsStation x) : tree.Cleans w x ↔ w = tree.cleanerOf x := by
  cases x with
  | tor t =>
    obtain ⟨worker,below⟩ := tree.mem_under.mp (tree.cleaner_mem station)
    constructor
    · intro cleans
      cases cleans with
      | tor _ first => exact first
    · rintro rfl
      have cleans : tree.Cleans _ _ := .tor worker (by rw [below])
      rwa [below] at cleans
  | core =>
    have below := (tree.mem_under.mp (tree.cleaner_mem (tree.upperCleaner_mem station))).2
    constructor
    · intro cleans
      cases cleans with
      | core first _ upper => rw [upper] at first; exact first
    · rintro rfl
      refine .core ?_ station below
      change tree.cleaner tree.upperCleaner = _
      rw [show tree.torOf (tree.cleanerOf .core) = tree.upperCleaner from below]
  | worker v => cases station

theorem cleanerOf_above (station : tree.IsStation x) :
    x = .tor (tree.torOf (tree.cleanerOf x)) ∨ x = .core := by
  cases x with
  | tor t => exact Or.inl (congrArg Node.tor (tree.mem_under.mp (tree.cleaner_mem station)).2.symm)
  | core => exact Or.inr rfl
  | worker w => cases station

end Tree

/-- One of the two maps of the switch has an entry for the key. -/
def Switch.holds (sw : Switch) (tkey : Nat) : Prop :=
  sw.countForTensorKey tkey ≠ none ∨ sw.seenForTensorKey tkey ≠ none

namespace Switch
variable {sw : Switch} {tkey : Nat}

theorem entries_of_bare (bare : ¬sw.holds tkey) (key : SlotKey) :
    sw.count tkey key = 0 ∧ sw.seen tkey key = ∅ := by
  rw [holds,not_or,not_not,not_not] at bare
  simp [count,seen,Table.get,bare.1,bare.2]
  exact ⟨rfl,rfl⟩

theorem holds_receivePacket {cfg : Config} {p : Packet}
    (after : (sw.receivePacket cfg p).switch.holds tkey) :
    tkey = u32 (p.tensor.key cfg) ∨ sw.holds tkey := by
  by_cases same : tkey = u32 (p.tensor.key cfg)
  · exact Or.inl same
  · rw [holds,Isolation.switch_count_frame cfg sw p same,
      Isolation.switch_seen_frame cfg sw p same] at after
    exact Or.inr after

theorem holds_clean (after : (sw.clean other).holds tkey) : tkey ≠ other ∧ sw.holds tkey := by
  simp only [holds,clean,Table.erase] at after ⊢
  by_cases same : tkey = other
  · simp [same] at after
  · simpa [same] using after

end Switch

theorem Flow.holds_of_records {old new : Network}
    (same : HierarchicalTopology.SameRecords old new) (x : Node) (tkey : Nat) :
    (new.switch x).holds tkey ↔ (old.switch x).holds tkey := by
  obtain ⟨counts,seen⟩ := Prod.mk.inj (Flow.recorded_switch same x)
  rw [Switch.holds,Switch.holds,counts,seen]

namespace Fabric
variable (cfg : Config) (f : Fabric)

section deliver
variable (fl : Flight)

theorem deliver_fields : (f.deliver cfg fl).begun = f.begun ∧
    (f.deliver cfg fl).objs = f.objs ∧ (f.deliver cfg fl).cleaned = f.cleaned := by
  unfold deliver
  split <;> exact ⟨rfl,rfl,rfl⟩

/-- Only the receiver can get an entry, and only for the packet's tensor. -/
theorem holds_deliver {x : Node} (switch : ∀ w, x ≠ .worker w)
    (after : ((f.deliver cfg fl).net.switch x).holds tkey) :
    (x = fl.hop.dest ∧ tkey = fl.layer.cut cfg) ∨ (f.net.switch x).holds tkey := by
  rcases dest : fl.hop.dest with t | _ | w
  all_goals simp only [deliver,dest] at after
  case worker =>
    refine Or.inr ?_
    cases x with
    | tor t => exact after
    | core => exact after
    | worker v => exact absurd rfl (switch v)
  all_goals
    simp only [atSwitch,dest] at after
    by_cases here : x = fl.hop.dest
    · rw [dest] at here
      subst here
      rw [Network.switch_setSwitch_self _ _ _ switch] at after
      rcases Switch.holds_receivePacket after with same | before
      · exact Or.inl ⟨rfl,same⟩
      · exact Or.inr before
    · rw [dest] at here
      rw [Network.switch_setSwitch_other _ _ _ here switch] at after
      exact Or.inr after

theorem received_deliver (w tkey : Nat) :
    (fl.hop.dest = .worker w ∧ tkey = fl.layer.cut cfg) ∨
      ((f.deliver cfg fl).net.worker w).received tkey = (f.net.worker w).received tkey := by
  rcases dest : fl.hop.dest with t | _ | v
  all_goals simp only [deliver,dest]
  case worker =>
    by_cases here : w = v ∧ tkey = fl.layer.cut cfg
    · exact Or.inl ⟨congrArg Node.worker here.1.symm,here.2⟩
    · refine Or.inr ?_
      simp only [atWorker]
      rcases eq_or_ne w v with rfl | other
      · rw [Network.setWorker_same]
        apply Isolation.get_of_entry
        exact Isolation.worker_received_frame cfg f.objs _ _ fun same => here ⟨rfl,same⟩
      · rw [Network.setWorker_other _ _ other]
  all_goals exact Or.inr (by simp only [atSwitch,Network.setSwitch_worker])

theorem done_deliver : (f.deliver cfg fl).done =
    match fl.hop.dest with
    | .worker w => if f.releases cfg fl then
        Function.update f.done (fl.layer.ref w) (f.done (fl.layer.ref w) + 1) else f.done
    | .tor _ | .core => f.done := by
  rcases dest : fl.hop.dest with t | _ | w
  all_goals
    simp only [deliver,releases,dest]
    rfl

theorem config_deliver : (∀ t, ((f.deliver cfg fl).net.tor t).config = (f.net.tor t).config) ∧
    (f.deliver cfg fl).net.core.config = f.net.core.config ∧
    ∀ w, ((f.deliver cfg fl).net.worker w).config = (f.net.worker w).config := by
  rcases dest : fl.hop.dest with t | _ | w
  case worker =>
    simp only [deliver,dest,atWorker]
    refine ⟨fun _ => rfl,rfl,fun v => ?_⟩
    rcases eq_or_ne v w with rfl | other
    · rw [Network.setWorker_same]; exact Worker.config_receivePacket ..
    · rw [Network.setWorker_other _ _ other]
  all_goals
    have config := Switch.config_receivePacket cfg (f.net.switch fl.hop.dest) fl.hop.packet
    simp only [deliver,dest,atSwitch] at config ⊢
    exact ⟨Network.setSwitch_tor_config _ _ _ config,Network.setSwitch_core_config _ _ _ config,
      fun _ => by rw [Network.setSwitch_worker]⟩

end deliver

theorem cleanUp_fields (r : TensorRef) (turn : Nat) :
    (f.cleanUp cfg r turn).objs = f.objs ∧ (f.cleanUp cfg r turn).inflight = f.inflight ∧
      (f.cleanUp cfg r turn).begun = f.begun ∧ (f.cleanUp cfg r turn).done = f.done ∧
      (f.cleanUp cfg r turn).shadowed = f.shadowed ∧
      (f.cleanUp cfg r turn).net.worker = f.net.worker := by
  simp only [cleanUp]
  split <;> [split; skip]
  all_goals exact ⟨rfl,rfl,rfl,rfl,rfl,by simp [clean]⟩

theorem config_cleanUp (r : TensorRef) (turn : Nat) :
    (∀ t, ((f.cleanUp cfg r turn).net.tor t).config = (f.net.tor t).config) ∧
      (f.cleanUp cfg r turn).net.core.config = f.net.core.config := by
  have clean (g : Fabric) (x : Node) (l : Layer) :
      (∀ t, ((g.clean cfg x l turn).net.tor t).config = (g.net.tor t).config) ∧
        (g.clean cfg x l turn).net.core.config = g.net.core.config :=
    ⟨Network.setSwitch_tor_config _ _ _ (Switch.config_clean ..),
      Network.setSwitch_core_config _ _ _ (Switch.config_clean ..)⟩
  simp only [cleanUp]
  split
  · split
    · obtain ⟨tors,core⟩ := clean f (.tor (f.net.worker r.machine).tor) r.layer
      obtain ⟨tors',core'⟩ := clean (f.clean cfg (.tor (f.net.worker r.machine).tor) r.layer turn)
        .core r.layer
      exact ⟨fun t => (tors' t).trans (tors t),core'.trans core⟩
    · exact clean ..
  · exact ⟨fun _ => rfl,rfl⟩

section cleanUp
variable {tree : Tree} {l : Layer} (wired : Wired tree l.1 f.net) (worker : w ∈ tree.workers)
  (turn : Nat)
include wired worker

/-- Entries disappear, and all of the layer at the switches that the worker cleans. -/
theorem holds_cleanUp {x : Node} (switch : ∀ w, x ≠ .worker w)
    (after : ((f.cleanUp cfg (l.ref w) turn).net.switch x).holds tkey) :
    (f.net.switch x).holds tkey ∧ ¬(tree.Cleans w x ∧ tkey = l.cut cfg) := by
  have clean (g : Fabric) (y : Node) (station : tree.IsStation y)
      (after : ((g.clean cfg y l turn).net.switch x).holds tkey) :
      (g.net.switch x).holds tkey ∧ ¬(x = y ∧ tkey = l.cut cfg) := by
    simp only [Fabric.clean] at after
    rcases eq_or_ne x y with rfl | other
    · rw [Network.switch_setSwitch_self _ _ _ switch] at after
      obtain ⟨apart,before⟩ := Switch.holds_clean after
      exact ⟨before,fun both => apart both.2⟩
    · rw [Network.switch_setSwitch_other _ _ _ other switch] at after
      exact ⟨after,fun both => other both.1⟩
  rcases f.cleanUp_cases cfg wired worker turn with
    ⟨none,same⟩ | ⟨lower,alone,same⟩ | ⟨lower,upper,same⟩
  · rw [same] at after
    exact ⟨after,fun both => none x both.1⟩
  · rw [same] at after
    obtain ⟨before,apart⟩ := clean _ _ lower.station after
    refine ⟨before,?_⟩
    rintro ⟨cleans,key⟩
    cases cleans with
    | tor => exact apart ⟨rfl,key⟩
    | core first tall top => exact alone (.core first tall top)
  · rw [same] at after
    obtain ⟨middle,above⟩ := clean _ _ upper.station after
    obtain ⟨before,below⟩ := clean _ _ lower.station middle
    refine ⟨before,?_⟩
    rintro ⟨cleans,key⟩
    cases cleans with
    | tor => exact below ⟨rfl,key⟩
    | core => exact above ⟨rfl,key⟩

theorem cleaned_cleanUp_other (other : m ≠ l) (x : Node) :
    (f.cleanUp cfg (l.ref w) turn).cleaned x m = f.cleaned x m := by
  have clean (g : Fabric) (y : Node) : (g.clean cfg y l turn).cleaned x m = g.cleaned x m := by
    simp only [Fabric.clean]
    rcases eq_or_ne x y with rfl | elsewhere
    · rw [Function.update_self,Function.update_of_ne other]
    · rw [Function.update_of_ne elsewhere]
  rcases f.cleanUp_cases cfg wired worker turn with ⟨_,same⟩ | ⟨_,_,same⟩ | ⟨_,_,same⟩
  · rw [same]
  · rw [same,clean]
  · rw [same,clean,clean]

theorem cleaned_cleanUp {x : Node} (station : tree.IsStation x) :
    (f.cleanUp cfg (l.ref w) turn).cleaned x l =
      f.cleaned x l + if w = tree.cleanerOf x then 1 else 0 := by
  have clean (g : Fabric) (y : Node) : (g.clean cfg y l turn).cleaned x l =
      g.cleaned x l + if x = y then 1 else 0 := by
    simp only [Fabric.clean]
    rcases eq_or_ne x y with rfl | elsewhere
    · rw [Function.update_self,Function.update_self,if_pos rfl]
    · rw [Function.update_of_ne elsewhere,if_neg elsewhere,Nat.add_zero]
  have known : tree.Cleans w x ↔ w = tree.cleanerOf x := Tree.cleans_iff station
  have lowest (lower : tree.Cleans w (.tor (tree.torOf w))) (below : x ≠ .core) :
      x = .tor (tree.torOf w) ↔ w = tree.cleanerOf x := by
    rw [← known]
    constructor
    · rintro rfl
      exact lower
    · intro cleans
      cases cleans with
      | tor => rfl
      | core => exact absurd rfl below
  rcases f.cleanUp_cases cfg wired worker turn with
    ⟨none,same⟩ | ⟨lower,alone,same⟩ | ⟨lower,upper,same⟩
  · rw [same,if_neg fun own => none x (known.mpr own)]
    rfl
  · rw [same,clean]
    rcases eq_or_ne x .core with rfl | below
    · rw [if_neg fun own => alone (known.mpr own),if_neg Node.noConfusion]
    · rw [if_congr (lowest lower below) rfl rfl]
  · rw [same,clean,clean]
    rcases eq_or_ne x .core with rfl | below
    · rw [if_neg Node.noConfusion,if_pos rfl,if_pos (known.mp upper)]
    · rw [if_congr (lowest lower below) rfl rfl,if_neg below,Nat.add_zero]

end cleanUp
end Fabric

theorem Link.dest_station {tree : Tree} {k : Link} (valid : k.Valid tree)
    (switch : ∀ w, k.dest tree ≠ .worker w) : tree.IsStation (k.dest tree) := by
  cases k with
  | up w => exact tree.torOf_mem valid
  | rise t => exact valid.2
  | fall t => exact valid.1
  | down w => exact absurd rfl (switch w)

/-- A packet on its way to a node belongs to an allreduce that no worker at or below the node has
received completely. -/
theorem Flow.before_end {tr : Traffic} (flow : Flow tr exact lad f) (member : fl ∈ f.inflight)
    (worker : v ∈ (tr.tree fl.layer.1).workers)
    (above : (fl.hop.dest = .tor ((tr.tree fl.layer.1).torOf v) ∨ fl.hop.dest = .core) ∨
      fl.hop.dest = .worker v) :
    ∃ w ∈ (tr.tree fl.layer.1).workers, f.done (fl.layer.ref v) < f.begun (fl.layer.ref w) := by
  obtain ⟨owner,_,_,stamp⟩ := flow.links.stamped fl member
  have proper := flow.links.proper fl member
  have pending := flow.links.under fl member
  rcases place : fl.place with ⟨l,s,k⟩
  rw [place] at proper pending stamp
  have dest : fl.hop.dest = k.dest (tr.tree l.1) := by rw [stamp]; rfl
  have layer : fl.layer = l := congrArg Place.layer place
  rw [dest,layer] at above
  rw [layer] at worker ⊢
  obtain ⟨active,slot,valid⟩ := proper
  have ordered := flow.ordered l active s slot
  have base : f.done (l.ref v) * tr.rounds l s ≤ (lad l s).got v :=
    (flow.senders l active v worker).base s slot
  obtain ⟨w,also,begun⟩ := flow.begun_of_pending ⟨active,slot,valid⟩ pending
  have received : f.done (l.ref v) * tr.rounds l s ≤ k.low (lad l s) := by
    cases k with
    | up u =>
      have closed := flow.closed active worker slot (above.resolve_right Node.noConfusion)
      exact closed.trans (ordered.merged_le u valid)
    | rise t =>
      have closed := flow.closed active worker slot (above.resolve_right Node.noConfusion)
      exact closed.trans (ordered.reduced_le t valid.1)
    | fall t =>
      rcases above with (same | core) | leaf
      · have below : (tr.tree l.1).torOf v = t := (Node.tor.inj same).symm
        exact base.trans (below ▸ ordered.got_le v worker)
      · cases core
      · cases leaf
    | down u =>
      rcases above with (tor | core) | same
      · cases tor
      · cases core
      · rw [Node.worker.inj same]
        exact base
  exact ⟨w,also,Nat.lt_of_mul_lt_mul_right (Nat.lt_of_le_of_lt received begun)⟩

theorem Link.exists_below {tree : Tree} {k : Link} (valid : k.Valid tree) :
    ∃ v ∈ tree.workers, (k.dest tree = .tor (tree.torOf v) ∨ k.dest tree = .core) ∨
      k.dest tree = .worker v := by
  cases k with
  | up w => exact ⟨w,valid,Or.inl (Or.inl rfl)⟩
  | rise t =>
    obtain ⟨w,worker,_⟩ := (tree.involved t).mp valid.1
    exact ⟨w,worker,Or.inl (Or.inr rfl)⟩
  | fall t =>
    obtain ⟨w,worker,rfl⟩ := (tree.involved t).mp valid.1
    exact ⟨w,worker,Or.inl (Or.inl rfl)⟩
  | down w => exact ⟨w,valid,Or.inr rfl⟩

theorem Flow.landed {tr : Traffic} (flow : Flow tr exact lad f) {n : Nat}
    (ended : ∀ w ∈ (tr.tree l.1).workers, f.begun (l.ref w) = n ∧ f.done (l.ref w) = n) :
    ∀ fl ∈ f.inflight, fl.layer ≠ l := by
  rintro fl member rfl
  obtain ⟨owner,_,_,stamp⟩ := flow.links.stamped fl member
  have dest : fl.hop.dest = fl.place.link.dest (tr.tree fl.layer.1) := by
    conv_lhs => rw [stamp]
    rfl
  obtain ⟨v,worker,above⟩ := Link.exists_below (flow.links.proper fl member).2.2
  obtain ⟨w,also,behind⟩ := flow.before_end member worker (dest ▸ above)
  rw [(ended v worker).2,(ended w also).1] at behind
  exact Nat.lt_irrefl n behind

end CloudSim
