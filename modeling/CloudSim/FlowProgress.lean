import CloudSim.FlowStep

/-! A network in which nothing is dropped does not stop halfway: a slot that is not at its end has
a packet under way. -/
namespace CloudSim
namespace Flow
variable {tr : Traffic} {lad : Ladders} {f : Fabric} {l : Layer} {s n : Nat}
  (flow : Flow tr True lad f) (active : l ∈ tr.active) (slot : s < tr.cfg.numSlots)
include flow active slot

/-- A result that one worker has and another has not is on its way down to the other. -/
theorem falls (worker : w ∈ (tr.tree l.1).workers) (other : c ∈ (tr.tree l.1).workers)
    (ahead : (lad l s).got c < (lad l s).got w) :
    ∃ fl ∈ f.inflight, fl.hop.packet.upward = false := by
  have ordered := flow.ordered l active s slot
  have above := (tr.tree l.1).torOf_mem worker
  have above' := (tr.tree l.1).torOf_mem other
  have got : (lad l s).got w ≤ (lad l s).relayed ((tr.tree l.1).torOf w) :=
    ordered.got_le w worker
  have relayed : (lad l s).relayed ((tr.tree l.1).torOf w) ≤ (lad l s).reduced :=
    ordered.relayed_le _ above
  have downward (k : Link) (valid : k.Valid (tr.tree l.1)) (down : k.upward = false)
      (pending : k.low (lad l s) < k.high (tr.tree l.1) (lad l s)) :
      ∃ fl ∈ f.inflight, fl.hop.packet.upward = false := by
    obtain ⟨fl,member,place⟩ := flow.links.full trivial ⟨l,s,k⟩ ⟨active,slot,valid⟩ pending
    obtain ⟨_,_,_,stamp⟩ := flow.links.stamped fl member
    rw [place] at stamp
    exact ⟨fl,member,by rw [stamp]; exact down⟩
  rcases Nat.lt_or_ge ((lad l s).got c) ((lad l s).relayed ((tr.tree l.1).torOf c)) with near | far
  · exact downward (.down c) other rfl near
  · have behind : (lad l s).relayed ((tr.tree l.1).torOf c) < (lad l s).reduced := by omega
    cases flat : (tr.tree l.1).flat with
    | false => exact downward (.fall _) ⟨above',flat⟩ rfl behind
    | true =>
      rw [(tr.tree l.1).only_tor flat above' above] at got
      omega

variable (quiet : f.inflight = [])
include quiet

/-- With no packet under way every slot of every worker has run to the end of what all have begun. -/
theorem reached (begun : ∀ w ∈ (tr.tree l.1).workers, n ≤ f.begun (l.ref w))
    (worker : w ∈ (tr.tree l.1).workers) : n * tr.rounds l s ≤ (lad l s).got w := by
  have ordered := flow.ordered l active s slot
  have settled (k : Link) (valid : k.Valid (tr.tree l.1)) :
      k.high (tr.tree l.1) (lad l s) ≤ k.low (lad l s) := by
    by_contra pending
    obtain ⟨fl,under,_⟩ :=
      flow.links.full trivial ⟨l,s,k⟩ ⟨active,slot,valid⟩ (Nat.not_le.mp pending)
    rw [quiet] at under
    cases under
  have down (v : Nat) (member : v ∈ (tr.tree l.1).workers) :
      (lad l s).relayed ((tr.tree l.1).torOf v) ≤ (lad l s).got v := settled (.down v) member
  have up (v : Nat) (member : v ∈ (tr.tree l.1).workers) :
      (lad l s).sent v ≤ (lad l s).counted v := settled (.up v) member
  -- a worker whose last contribution its ToR has passed on has nothing left to send
  have finished (v : Nat) (member : v ∈ (tr.tree l.1).workers)
      (passed : (lad l s).counted v ≤ (lad l s).got v) : n * tr.rounds l s ≤ (lad l s).got v := by
    have sender := flow.senders l active v member
    have base : f.done (l.ref v) * tr.rounds l s ≤ (lad l s).got v := sender.base s slot
    have sent : (lad l s).sent v = min _ _ := sender.sent s slot
    have order := sender.ended_le
    have sends := up v member
    have all := Nat.mul_le_mul_right (tr.rounds l s) (begun v member)
    rcases order.eq_or_lt with ended | open'
    · exact all.trans (ended ▸ base)
    · omega
  have opened (x : Node) (station : (tr.tree l.1).IsStation x) :
      ∃ c ∈ (tr.tree l.1).children x, (lad l s).cnt x c ≤ (lad l s).own x := by
    by_contra full
    refine (flow.posts l active s slot x station).station.opened trivial |>.ne (ahead_full.mpr ?_)
    intro c member
    exact Nat.not_le.mp fun behind => full ⟨c,member,behind⟩
  -- some ToR is level with the results, hence one of its workers is
  have level : ∃ t ∈ (tr.tree l.1).tors, (lad l s).merged t ≤ (lad l s).relayed t ∧
      (lad l s).reduced ≤ (lad l s).relayed t := by
    have above := (tr.tree l.1).torOf_mem worker
    cases flat : (tr.tree l.1).flat with
    | true =>
      have merged := flow.level l active flat s slot _ above
      have joined := ordered.joined_le _ above
      have reduced := ordered.reduced_le _ above
      exact ⟨_,above,merged,reduced.trans (joined.trans merged)⟩
    | false =>
      obtain ⟨t,inside,behind⟩ := opened .core flat
      have rise : (lad l s).merged t ≤ (lad l s).joined t := settled (.rise t) ⟨inside,flat⟩
      have fall : (lad l s).reduced ≤ (lad l s).relayed t := settled (.fall t) ⟨inside,flat⟩
      exact ⟨t,inside,rise.trans (Nat.le_trans behind fall),fall⟩
  obtain ⟨t,inside,merged,reduced⟩ := level
  obtain ⟨v,below,behind⟩ := opened (.tor t) inside
  obtain ⟨member,rfl⟩ := (tr.tree l.1).mem_under.mp below
  have reached := finished v member (Nat.le_trans behind (merged.trans (down v member)))
  have got := ordered.got_le v member
  have relayed := ordered.relayed_le _ inside
  have mine : (lad l s).reduced ≤ (lad l s).got w := by
    have last := down w worker
    cases flat : (tr.tree l.1).flat with
    | true =>
      have same := (tr.tree l.1).only_tor flat ((tr.tree l.1).torOf_mem worker) inside
      rw [same] at reduced
      exact reduced.trans last
    | false =>
      have fall : (lad l s).reduced ≤ (lad l s).relayed ((tr.tree l.1).torOf w) :=
        settled (.fall _) ⟨(tr.tree l.1).torOf_mem worker,flat⟩
      exact fall.trans last
  exact reached.trans (got.trans (relayed.trans mine))

omit slot in
theorem ended_of_quiet (begun : ∀ w ∈ (tr.tree l.1).workers, n ≤ f.begun (l.ref w))
    (worker : w ∈ (tr.tree l.1).workers) : n ≤ f.done (l.ref w) := by
  by_contra unfinished
  have sender := flow.senders l active w worker
  have most := sender.begun_le
  have began := begun w worker
  obtain ⟨s,slot,behind⟩ := sender.opened (by omega)
  have reached := flow.reached active slot quiet begun worker
  rw [show f.begun (l.ref w) = n by omega] at behind
  exact absurd reached (Nat.not_le.mpr behind)

end Flow
end CloudSim
