import CloudSim.Station
import CloudSim.Traffic

/-! The entries of one slot of a layer in one switch: the counters, and the children that the
`seen` sets hold. -/
namespace CloudSim

/-- A child is in the set of the version it contributed last, unless the switch was cleaned
since. With `exact`, contributions come after the clean-ups of earlier allreduces. -/
structure Post (tr : Traffic) (exact : Prop) (l : Layer) (s : Nat) (children : List Nat)
    (cnt : Nat → Nat) (own cleaned : Nat) (sw : Switch) : Prop where
  station : Station exact (tr.tree l.1).workers.length children cnt own (tr.ver l s)
    fun v => sw.count (l.cut tr.cfg) (s,v)
  seen : exact → ∀ c ∈ children, ∀ v, c ∈ sw.seen (l.cut tr.cfg) (s,v) ↔
    cleaned * tr.rounds l s < cnt c ∧ tr.ver l s (cnt c - 1) = v
  since : exact → ∀ c ∈ children, cleaned * tr.rounds l s ≤ cnt c
  timely : exact → ∀ c ∈ children, cnt c ≤ (cleaned + 1) * tr.rounds l s

namespace Post
variable {tr : Traffic} {exact : Prop} {l : Layer} {s : Nat} {children : List Nat}
  {cnt : Nat → Nat} {own cleaned : Nat} {sw : Switch}

theorem ground (nonempty : 0 < children.length) (counts : ∀ v, sw.count (l.cut tr.cfg) (s,v) = 0)
    (seen : ∀ v, sw.seen (l.cut tr.cfg) (s,v) = ∅) :
    Post tr exact l s children (fun _ => 0) 0 0 sw := by
  have idle : ahead children (fun _ => 0) 0 = 0 := ahead_none.mpr fun _ _ => Nat.le_refl 0
  refine ⟨⟨fun v => ?_,fun v => ?_,fun _ => ?_,fun _ => ?_⟩,fun _ c _ v => ?_,fun _ c _ => ?_,
    fun _ c _ => Nat.zero_le _⟩
  · rw [counts]; exact Nat.zero_le _
  · rw [counts,show Switch.load _ 0 = 0 from ite_self 0]; exact Nat.zero_le _
  · rw [idle]; exact Nat.zero_le _
  · rw [idle]; exact nonempty
  · rw [seen]
    simp
  · rw [Nat.zero_mul]

theorem frame (post : Post tr exact l s children cnt own cleaned sw)
    (counts : ∀ v, sw'.count (l.cut tr.cfg) (s,v) = sw.count (l.cut tr.cfg) (s,v))
    (sets : ∀ v, sw'.seen (l.cut tr.cfg) (s,v) = sw.seen (l.cut tr.cfg) (s,v)) :
    Post tr exact l s children cnt own cleaned sw' := by
  refine ⟨?_,fun tight c member v => ?_,post.since,post.timely⟩
  · simpa only [counts] using post.station
  · rw [sets]; exact post.seen tight c member v

theorem congr (post : Post tr exact l s children cnt own cleaned sw)
    (same : ∀ c ∈ children, cnt' c = cnt c) : Post tr exact l s children cnt' own cleaned sw := by
  have equal : ahead children cnt' own = ahead children cnt own := by
    apply List.countP_congr
    intro c member
    rw [same c member]
  refine ⟨⟨post.station.small,?_,?_,?_⟩,fun tight c member v => ?_,fun tight c member => ?_,
    fun tight c member => ?_⟩
  · simpa only [equal] using post.station.upper
  · simpa only [equal] using post.station.lower
  · simpa only [equal] using post.station.opened
  · rw [same c member]; exact post.seen tight c member v
  · rw [same c member]; exact post.since tight c member
  · rw [same c member]; exact post.timely tight c member

/-- A child that contributes in time is not in the set of the version it contributes to. -/
theorem fresh (post : Post tr exact l s children cnt own cleaned sw) (tight : exact)
    (child : c ∈ children) (used : 0 < tr.rounds l s) (timely : tr.turn l s (cnt c) ≤ cleaned) :
    c ∉ sw.seen (l.cut tr.cfg) (s,tr.ver l s (cnt c)) := by
  rw [post.seen tight c child]
  rintro ⟨later,same⟩
  -- the previous contribution is of the same allreduce, hence of the other version
  have within : cnt c < (cleaned + 1) * tr.rounds l s :=
    (Nat.div_lt_iff_lt_mul used).mp (Nat.lt_succ_of_le timely)
  have previous : (cnt c - 1) % tr.rounds l s + 1 < tr.rounds l s := by
    obtain ⟨r,split⟩ := Nat.exists_eq_add_of_le (Nat.le_sub_one_of_lt later)
    rw [Nat.succ_mul] at within
    rw [split,(Lanes.of_pass (show r < tr.rounds l s by omega)).1]
    omega
  have flipped := Traffic.ver_succ previous
  have below : tr.ver l s (cnt c - 1) < 2 := Traffic.ver_lt _
  rw [show cnt c - 1 + 1 = cnt c by omega] at flipped
  omega

theorem seen_climb {sw' : Switch} (post : Post tr exact l s children cnt own cleaned sw)
    (tight : exact) (child : c ∈ children) (level : cnt c = own)
    (sets : ∀ v, sw'.seen (l.cut tr.cfg) (s,v) =
      if v = tr.ver l s own then insert c (sw.seen (l.cut tr.cfg) (s,v))
      else if v = 1 - tr.ver l s own then (sw.seen (l.cut tr.cfg) (s,v)).erase c
      else sw.seen (l.cut tr.cfg) (s,v)) :
    ∀ d ∈ children, ∀ v, d ∈ sw'.seen (l.cut tr.cfg) (s,v) ↔
      cleaned * tr.rounds l s < Function.update cnt c (own + 1) d ∧
        tr.ver l s (Function.update cnt c (own + 1) d - 1) = v := by
  intro d member v
  have old := post.seen tight d member v
  rw [sets]
  rcases eq_or_ne d c with rfl | other
  · have since := post.since tight d member
    have below : tr.ver l s own < 2 := Traffic.ver_lt _
    have before : tr.ver l s (cnt d - 1) < 2 := Traffic.ver_lt _
    rw [Function.update_self,Nat.add_sub_cancel]
    split
    · rename_i here
      subst here
      simp only [Finset.mem_insert_self,true_iff,and_true]
      omega
    · rename_i elsewhere
      split
      · simp only [Finset.mem_erase,ne_eq,not_true_eq_false,false_and,false_iff,not_and]
        exact fun _ same => elsewhere same.symm
      · rw [old]
        constructor <;> rintro ⟨_,same⟩ <;> omega
  · rw [Function.update_of_ne other]
    split
    · simpa [other] using old
    · split
      · simpa [other] using old
      · exact old

/-- The invariant after a contribution, from what it did to the counters and the sets. -/
theorem climb {sw' : Switch} (post : Post tr exact l s children cnt own cleaned sw)
    (child : c ∈ children) (level : cnt c = own) (used : 0 < tr.rounds l s)
    (timely : exact → tr.turn l s own ≤ cleaned)
    (station : Station exact (tr.tree l.1).workers.length children
      (Function.update cnt c (own + 1)) own' (tr.ver l s)
      fun v => sw'.count (l.cut tr.cfg) (s,v))
    (sets : ∀ v, sw'.seen (l.cut tr.cfg) (s,v) =
      if v = tr.ver l s own then insert c (sw.seen (l.cut tr.cfg) (s,v))
      else if v = 1 - tr.ver l s own then (sw.seen (l.cut tr.cfg) (s,v)).erase c
      else sw.seen (l.cut tr.cfg) (s,v)) :
    Post tr exact l s children (Function.update cnt c (own + 1)) own' cleaned sw' := by
  refine ⟨station,fun tight => post.seen_climb tight child level sets,fun tight d member => ?_,
    fun tight d member => ?_⟩
  all_goals
    have since := post.since tight d member
    have last := post.timely tight d member
    rcases eq_or_ne d c with rfl | other
  · rw [Function.update_self]; omega
  · rwa [Function.update_of_ne other]
  · rw [Function.update_self]
    exact (Nat.div_lt_iff_lt_mul used).mp (Nat.lt_succ_of_le (timely tight))
  · rwa [Function.update_of_ne other]

theorem receive (sound : tr.Sound) (active : l ∈ tr.active)
    (post : Post tr exact l s children cnt own cleaned sw) (distinct : children.Nodup)
    (few : children.length ≤ (tr.tree l.1).workers.length)
    (updates : sw.numUpdatesForJob.get l.1 = children.length) (child : c ∈ children)
    (level : cnt c = own) (near : ∀ d ∈ children, cnt d ≤ own + 1) (used : 0 < tr.rounds l s)
    (timely : exact → tr.turn l s own ≤ cleaned) {link : Link} (upward : link.upward = true)
    (source : link.source (tr.tree l.1) tr.coreId = c) (owner : Nat) :
    let p := (tr.flight ⟨l,s,link⟩ own owner).hop.packet
    let result := sw.receivePacket tr.cfg p
    (¬exact ∧ result.shadow = true ∧ result.sent = [] ∧
      Post tr exact l s children cnt own cleaned result.switch) ∨
    (result.shadow = false ∧ result.sent = [] ∧
      Post tr exact l s children (Function.update cnt c (own + 1)) own cleaned result.switch) ∨
    (result.shadow = false ∧
      result.sent = (if sw.topLevelForJob.get l.1 then sw.multicastDownward p
        else [sw.unicastUpward p]) ∧
      (∀ d ∈ children, own < Function.update cnt c (own + 1) d) ∧
      Post tr exact l s children (Function.update cnt c (own + 1)) (own + 1) cleaned
        result.switch) := by
  intro p result
  have tkey : u32 (p.tensor.key tr.cfg) = l.cut tr.cfg := rfl
  have up : p.upward = true := upward
  have name : p.id = c := source
  have several := sound.several l active
  have size := sound.few l active
  have other : sub32 1 p.ver = 1 - p.ver := Traffic.sub_ver own
  have versions : sub32 1 p.ver ≠ p.ver := by
    have below : p.ver < 2 := Traffic.ver_lt own
    omega
  by_cases again : p.id ∈ sw.seen (u32 (p.tensor.key tr.cfg)) (p.slot,p.ver)
  · have dropped := Switch.receive_shadow tr.cfg sw p up again
    refine Or.inl ⟨fun tight => ?_,by simp only [result,dropped],by simp only [result,dropped],?_⟩
    · rw [name] at again
      exact post.fresh tight child used (level ▸ timely tight) (level ▸ again)
    · simp only [result,dropped]
      exact post.frame (fun v => Switch.count_touchCount ..) (fun v => rfl)
  have behind : cnt c ≤ own := level.le
  have sets (v : Nat) : (sw.mark (l.cut tr.cfg) p).seen (l.cut tr.cfg) (s,v) =
      if v = tr.ver l s own then insert c (sw.seen (l.cut tr.cfg) (s,v))
      else if v = 1 - tr.ver l s own then (sw.seen (l.cut tr.cfg) (s,v)).erase c
      else sw.seen (l.cut tr.cfg) (s,v) := by
    rw [Switch.seen_mark _ _ _ versions,other,name]
    simp [p,Traffic.flight]
  have counts (value : Nat) : (fun v => ((sw.mark (l.cut tr.cfg) p).setCount (l.cut tr.cfg)
      (p.slot,p.ver) value).count (l.cut tr.cfg) (s,v)) =
      Function.update (fun v => sw.count (l.cut tr.cfg) (s,v)) (tr.ver l s own) value := by
    funext v
    rw [Switch.count_setCount]
    rcases eq_or_ne v (tr.ver l s own) with rfl | elsewhere
    · rw [Function.update_self]; exact if_pos ⟨rfl,rfl⟩
    · rw [Function.update_of_ne elsewhere]
      exact if_neg fun same => elsewhere (Prod.mk.inj same.2).2
  have counted : sw.counted (l.cut tr.cfg) p =
      if Switch.load (tr.tree l.1).workers.length (sw.count (l.cut tr.cfg) (s,tr.ver l s own)) + 1 =
        children.length then 0
      else Switch.load (tr.tree l.1).workers.length
        (sw.count (l.cut tr.cfg) (s,tr.ver l s own)) + 1 := by
    have room := post.station.room child behind
    rw [← Switch.nextCount_eq few several (by omega) room (post.station.small _),← updates]
    rfl
  by_cases last : Switch.load (tr.tree l.1).workers.length
      (sw.count (l.cut tr.cfg) (s,tr.ver l s own)) + 1 = children.length
  · rw [if_pos last] at counted
    refine Or.inr (Or.inr ?_)
    cases top : sw.topLevelForJob.get l.1 with
    | true =>
      have taken := Switch.receive_top tr.cfg sw p up again counted top
      refine ⟨by simp only [result,taken],by simp only [result,taken,if_true],
        post.station.complete distinct child behind last,?_⟩
      simp only [result,taken]
      refine post.climb child level used timely ?_ sets
      rw [tkey,counts]
      exact post.station.close child near behind (Or.inl rfl)
    | false =>
      have taken := Switch.receive_up tr.cfg sw p up again counted top
      refine ⟨by simp only [result,taken],by simp only [result,taken,Bool.false_eq_true,if_false],
        post.station.complete distinct child behind last,?_⟩
      simp only [result,taken]
      refine post.climb child level used timely ?_ sets
      rw [tkey,counts]
      exact post.station.close child near behind (Or.inr rfl)
  · rw [if_neg last] at counted
    have taken := Switch.receive_partial tr.cfg sw p up again
      (by rw [tkey,counted]; exact Nat.succ_ne_zero _)
    refine Or.inr (Or.inl ⟨by simp only [result,taken],by simp only [result,taken],?_⟩)
    simp only [result,taken]
    refine post.climb child level used timely ?_ sets
    rw [tkey,counts,counted]
    exact post.station.count distinct few child behind last

theorem receive_result (post : Post tr exact l s children cnt own cleaned sw)
    (idle : ∀ d ∈ children, cnt d ≤ own) {link : Link} (downward : link.upward = false)
    (q owner : Nat) :
    let p := (tr.flight ⟨l,s,link⟩ q owner).hop.packet
    let result := sw.receivePacket tr.cfg p
    result.shadow = false ∧ result.sent = sw.multicastDownward p ∧
      Post tr exact l s children cnt own cleaned result.switch := by
  intro p result
  have taken := Switch.receive_down tr.cfg sw p downward
  refine ⟨by simp only [result,taken],by simp only [result,taken],?_⟩
  simp only [result,taken]
  refine ⟨?_,post.seen,post.since,post.timely⟩
  have counts : (fun v => (sw.setCount (u32 (p.tensor.key tr.cfg)) (p.slot,p.ver)
      p.nWorkers).count (l.cut tr.cfg) (s,v)) =
      Function.update (fun v => sw.count (l.cut tr.cfg) (s,v)) (tr.ver l s q)
        (tr.tree l.1).workers.length := by
    funext v
    rw [Switch.count_setCount]
    rcases eq_or_ne v (tr.ver l s q) with rfl | elsewhere
    · rw [Function.update_self]; exact if_pos ⟨rfl,rfl⟩
    · rw [Function.update_of_ne elsewhere]
      exact if_neg fun same => elsewhere (Prod.mk.inj same.2).2
  rw [counts]
  exact post.station.settle idle

theorem clean (post : Post tr exact l s children cnt own cleaned sw)
    (ended : exact → (cleaned + 1) * tr.rounds l s ≤ own)
    (ordered : ∀ c ∈ children, own ≤ cnt c) :
    Post tr exact l s children cnt own (cleaned + 1) (sw.clean (l.cut tr.cfg)) := by
  refine ⟨?_,fun tight c member v => ?_,fun tight c member => (ended tight).trans (ordered c member),
    fun tight c member => ?_⟩
  · simp only [Switch.count_clean,if_true]
    exact post.station.clean fun tight c member => (post.timely tight c member).trans (ended tight)
  · have last := post.timely tight c member
    simp only [Switch.seen_clean,if_true,Finset.notMem_empty,false_iff,not_and]
    intro later
    omega
  · have last := post.timely tight c member
    rw [Nat.succ_mul]
    omega

end Post
end CloudSim
