import CloudSim.Carriage
import CloudSim.FlowStep

/-! How far a packet's slot is in its allreduce: every round takes two hops below one ToR and four
over the core, and what a delivery sends is one hop further. -/
namespace CloudSim

def Network.sends (cfg : Config) (net : Network) (objs : Objects) (hop : Hop) : List Hop :=
  match hop.dest with
  | .tor t => ((net.tor t).receivePacket cfg hop.packet).sent
  | .core => (net.core.receivePacket cfg hop.packet).sent
  | .worker w => ((net.worker w).receivePacket cfg objs hop.packet).sent

theorem Fabric.hops_fly (turn : Nat) (hops : List Hop) :
    (Fabric.fly turn hops).map Flight.hop = hops := by
  rw [Fabric.fly,List.map_map]
  exact List.map_id hops

theorem Fabric.inflight_deliver_eq (f : Fabric) (cfg : Config) (fl : Flight) :
    (f.deliver cfg fl).inflight =
      f.inflight.erase fl ++ Fabric.fly fl.turn (f.net.sends cfg f.objs fl.hop) := by
  cases dest : fl.hop.dest with
  | tor t =>
    simp only [Fabric.deliver,Network.sends,Fabric.atSwitch,dest]
    rfl
  | core =>
    simp only [Fabric.deliver,Network.sends,Fabric.atSwitch,dest]
    rfl
  | worker w => simp only [Fabric.deliver,Network.sends,Fabric.atWorker,dest]

def Tree.height (tree : Tree) : Nat := if tree.flat then 2 else 4

def Hop.leg (tree : Tree) (hop : Hop) : Nat :=
  match hop.dest with
  | .tor _ => if hop.packet.upward then 0 else 2
  | .core => 1
  | .worker _ => tree.height - 1

def Traffic.depth (tr : Traffic) (hop : Hop) : Nat :=
  let tree := tr.tree hop.packet.tensor.job
  tree.height * (hop.packet.offset / tr.cfg.numUpdates / tr.cfg.numSlots) + hop.leg tree

def Traffic.depths (tr : Traffic) (l : Layer) : Nat := (tr.tree l.1).height * tr.rounds l 0

theorem Tree.height_flat {tree : Tree} (flat : tree.flat = true) : tree.height = 2 := if_pos flat

theorem Tree.height_tall {tree : Tree} (tall : tree.flat = false) : tree.height = 4 := by
  simp [Tree.height,tall]

namespace Traffic
variable {tr : Traffic} {l : Layer} {s : Nat}

theorem depth_flight (updates : 0 < tr.cfg.numUpdates) (slot : s < tr.cfg.numSlots) (k : Link)
    (q owner : Nat) : tr.depth (tr.flight ⟨l,s,k⟩ q owner).hop =
      (tr.tree l.1).height * (q % tr.rounds l s) +
        (tr.flight ⟨l,s,k⟩ q owner).hop.leg (tr.tree l.1) := by
  have round : tr.offset l s q / tr.cfg.numUpdates / tr.cfg.numSlots = q % tr.rounds l s := by
    rw [offset,Nat.mul_div_cancel _ updates]
    exact Lanes.item_div slot _ _
  rw [← round]
  rfl

theorem leg_lt (k : Link) (valid : k.Valid (tr.tree l.1)) (q owner : Nat) :
    (tr.flight ⟨l,s,k⟩ q owner).hop.leg (tr.tree l.1) < (tr.tree l.1).height := by
  cases k with
  | up w =>
    change 0 < (tr.tree l.1).height
    unfold Tree.height
    split <;> decide
  | rise t =>
    rw [Tree.height_tall valid.2]
    exact (by decide : 1 < 4)
  | fall t =>
    rw [Tree.height_tall valid.2]
    exact (by decide : 2 < 4)
  | down w =>
    change (tr.tree l.1).height - 1 < (tr.tree l.1).height
    unfold Tree.height
    split <;> decide

theorem rounds_le (l : Layer) (s : Nat) : tr.rounds l s ≤ tr.rounds l 0 :=
  Nat.div_le_div_right (Nat.sub_le_sub_left (Nat.zero_le s) _)

end Traffic

namespace Flow
variable {tr : Traffic} {exact : Prop} {lad : Ladders} {f : Fabric}

theorem depth_lt (sound : tr.Sound) (flow : Flow tr exact lad f) (member : fl ∈ f.inflight) :
    tr.depth fl.hop < tr.depths fl.layer := by
  obtain ⟨owner,_,_,stamp⟩ := flow.links.stamped fl member
  have proper := flow.links.proper fl member
  have pending := flow.links.under fl member
  rcases place : fl.place with ⟨l,s,k⟩
  rw [place] at proper pending stamp
  have layer : fl.layer = l := congrArg Place.layer place
  have used := flow.used proper pending
  have round := Nat.mod_lt (lad.low ⟨l,s,k⟩) used
  have leg : (tr.flight ⟨l,s,k⟩ (lad.low ⟨l,s,k⟩) owner).hop.leg (tr.tree l.1) <
      (tr.tree l.1).height := Traffic.leg_lt k proper.2.2 _ owner
  have most := tr.rounds_le l s
  rw [layer,stamp,Traffic.depth_flight sound.updates proper.2.1,Traffic.depths]
  generalize (tr.tree l.1).height = h at *
  calc _ < h * (lad.low ⟨l,s,k⟩ % tr.rounds l s) + h := Nat.add_lt_add_left leg _
    _ = h * (lad.low ⟨l,s,k⟩ % tr.rounds l s + 1) := (Nat.mul_succ _ _).symm
    _ ≤ h * tr.rounds l 0 := Nat.mul_le_mul_left _ (by omega)

theorem depth_passed {hop hop' : Hop} (tensor : hop'.packet.tensor = hop.packet.tensor)
    (offset : hop'.packet.offset = hop.packet.offset)
    (leg : hop'.leg (tr.tree hop.packet.tensor.job) = hop.leg (tr.tree hop.packet.tensor.job) + 1) :
    tr.depth hop' = tr.depth hop + 1 ∧ hop'.packet.tensor.layer = hop.packet.tensor.layer := by
  simp only [Traffic.depth,tensor,offset,leg,and_true]
  rfl

theorem leg_multicast {sw : Switch} {p : Packet} (tree : Tree)
    (member : hop ∈ sw.multicastDownward p) : hop.packet.tensor = p.tensor ∧
      hop.packet.offset = p.offset ∧ hop.leg tree = if sw.layer = 1 then 2 else tree.height - 1 := by
  obtain ⟨dest,_,rfl⟩ := List.mem_map.mp member
  refine ⟨rfl,rfl,?_⟩
  simp only [Hop.leg,Switch.downwardNode]
  by_cases core : sw.layer = 1 <;> simp [core]

/-- What the end of a hop sends is one hop further in the same allreduce. -/
theorem sends_depth (sound : tr.Sound) (flow : Flow tr exact lad f) (member : fl ∈ f.inflight)
    (new : hop ∈ f.net.sends tr.cfg f.objs fl.hop) :
    tr.depth hop = tr.depth fl.hop + 1 ∧ hop.packet.tensor.layer = fl.layer := by
  obtain ⟨owner,_,_,stamp⟩ := flow.links.stamped fl member
  have proper := flow.links.proper fl member
  rcases place : fl.place with ⟨l,s,k⟩
  rw [place] at proper stamp
  have wired := flow.wired l proper.1
  generalize low : lad.low ⟨l,s,k⟩ = q at stamp
  cases k with
  | up w =>
    have tor := (tr.tree l.1).torOf_mem proper.2.2
    subst stamp
    have new : hop ∈ ((f.net.tor ((tr.tree l.1).torOf w)).receivePacket tr.cfg
      (tr.flight ⟨l,s,.up w⟩ q owner).hop.packet).sent := new
    rcases Switch.sent_cases tr.cfg (f.net.tor ((tr.tree l.1).torOf w))
      (tr.flight ⟨l,s,.up w⟩ q owner).hop.packet with none | ⟨many,top⟩ | ⟨one,_,inner⟩
    · rw [none] at new
      cases new
    · rw [many] at new
      obtain ⟨tensor,offset,leg⟩ := leg_multicast (tr.tree l.1) new
      have flat := (wired.torTop _ tor).symm.trans (top rfl)
      rw [wired.torLayer _ tor,if_neg Nat.zero_ne_one,Tree.height_flat flat] at leg
      exact depth_passed tensor offset leg
    · rw [one,List.mem_singleton] at new
      subst new
      exact depth_passed rfl rfl rfl
  | rise t =>
    subst stamp
    have new : hop ∈ (f.net.core.receivePacket tr.cfg
      (tr.flight ⟨l,s,.rise t⟩ q owner).hop.packet).sent := new
    rcases Switch.sent_cases tr.cfg f.net.core
      (tr.flight ⟨l,s,.rise t⟩ q owner).hop.packet with none | ⟨many,_⟩ | ⟨_,_,inner⟩
    · rw [none] at new
      cases new
    · rw [many] at new
      obtain ⟨tensor,offset,leg⟩ := leg_multicast (tr.tree l.1) new
      rw [wired.coreLayer,if_pos rfl] at leg
      exact depth_passed tensor offset leg
    · cases (wired.coreTop proper.2.2.2).symm.trans inner
  | fall t =>
    subst stamp
    have new : hop ∈ ((f.net.tor t).receivePacket tr.cfg
      (tr.flight ⟨l,s,.fall t⟩ q owner).hop.packet).sent := new
    rcases Switch.sent_cases tr.cfg (f.net.tor t)
      (tr.flight ⟨l,s,.fall t⟩ q owner).hop.packet with none | ⟨many,_⟩ | ⟨_,upward,_⟩
    · rw [none] at new
      cases new
    · rw [many] at new
      obtain ⟨tensor,offset,leg⟩ := leg_multicast (tr.tree l.1) new
      rw [wired.torLayer t proper.2.2.1,if_neg Nat.zero_ne_one,Tree.height_tall proper.2.2.2] at leg
      exact depth_passed tensor offset leg
    · cases upward
  | down w =>
    obtain ⟨owner,landing,carried⟩ := flow.landing member place
    obtain ⟨split,_,_⟩ := landing.pass flow
    have outcome := flow.land sound landing
    dsimp only at outcome
    rw [← carried] at outcome
    have dest : fl.hop.dest = .worker w := by
      rw [carried]
      rfl
    simp only [Network.sends,dest] at new
    rcases outcome with ⟨_,_,none,_⟩ | ⟨_,_,_,⟨_,none⟩ | ⟨more,next⟩⟩
    · rw [none] at new
      cases new
    · rw [none] at new
      cases new
    · rw [Nat.succ_mul] at more
      have more : (lad l s).got w % tr.rounds l s + 1 < tr.rounds l s := by omega
      have hops := congrArg (List.map Flight.hop) next
      rw [Fabric.hops_fly] at hops
      rw [hops,List.map_singleton,List.mem_singleton] at new
      subst new
      rw [carried,Traffic.depth_flight sound.updates landing.slot,
        Traffic.depth_flight sound.updates landing.slot,Lanes.mod_succ more,Nat.mul_succ]
      have legs : 0 < (tr.tree l.1).height := by
        unfold Tree.height
        split <;> decide
      refine ⟨?_,rfl⟩
      change _ + (tr.tree l.1).height + 0 = _ + ((tr.tree l.1).height - 1) + 1
      omega

end Flow
end CloudSim
