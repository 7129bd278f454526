import CloudSim.Traffic

/-! One worker's side of the allreduces of a layer: in every slot it waits for the result of
its packet before it sends the next, and an allreduce ends when all slots have ended. -/
namespace CloudSim

namespace Traffic
variable (tr : Traffic) (l : Layer)

def arrived (ended : Nat) (got : Nat → Nat) : Finset Nat :=
  ((Finset.range (tr.pkts l)).filter fun k =>
    ended * tr.rounds l (k % tr.cfg.numSlots) + k / tr.cfg.numSlots <
      got (k % tr.cfg.numSlots)).image (· * tr.cfg.numUpdates)

variable {tr} {l}

theorem lt_rounds (slot : s < tr.cfg.numSlots) :
    r < tr.rounds l s ↔ s + r * tr.cfg.numSlots < tr.pkts l := Lanes.lt_rounds slot

theorem round_lt (sound : tr.Sound) (inside : k < tr.pkts l) :
    k % tr.cfg.numSlots < tr.cfg.numSlots ∧
      k / tr.cfg.numSlots < tr.rounds l (k % tr.cfg.numSlots) := by
  have slot := Nat.mod_lt k sound.slots
  refine ⟨slot,(lt_rounds slot).mpr ?_⟩
  rwa [Nat.mul_comm,Nat.mod_add_div]

theorem mem_arrived (sound : tr.Sound) :
    k * tr.cfg.numUpdates ∈ tr.arrived l ended got ↔ k < tr.pkts l ∧
      ended * tr.rounds l (k % tr.cfg.numSlots) + k / tr.cfg.numSlots <
        got (k % tr.cfg.numSlots) := by
  simp only [arrived,Finset.mem_image,Finset.mem_filter,Finset.mem_range]
  constructor
  · rintro ⟨j,member,same⟩
    rwa [← Nat.eq_of_mul_eq_mul_right sound.updates same]
  · intro member
    exact ⟨k,member,rfl⟩

theorem arrived_idle (sound : tr.Sound)
    (idle : ∀ s < tr.cfg.numSlots, got s = ended * tr.rounds l s) : tr.arrived l ended got = ∅ := by
  apply Finset.image_eq_empty.mpr
  apply Finset.filter_eq_empty_iff.mpr
  intro k member
  rw [idle _ (round_lt sound (Finset.mem_range.mp member)).1]
  exact Nat.not_lt.mpr (Nat.le_add_right _ _)

theorem card_arrived_le (ended : Nat) (got : Nat → Nat) :
    (tr.arrived l ended got).card ≤ tr.pkts l :=
  Finset.card_image_le.trans ((Finset.card_filter_le ..).trans (Finset.card_range _).le)

theorem card_arrived (sound : tr.Sound) :
    (tr.arrived l ended got).card = tr.pkts l ↔
      ∀ s < tr.cfg.numSlots, (ended + 1) * tr.rounds l s ≤ got s := by
  have injective : Function.Injective fun k => k * tr.cfg.numUpdates :=
    fun _ _ same => Nat.eq_of_mul_eq_mul_right sound.updates same
  rw [arrived,Finset.card_image_of_injective _ injective]
  nth_rewrite 2 [← Finset.card_range (tr.pkts l)]
  rw [Finset.card_filter_eq_iff]
  constructor
  · intro all s slot
    rcases Nat.eq_zero_or_pos (tr.rounds l s) with unused | used
    · rw [unused,Nat.mul_zero]; exact Nat.zero_le _
    · have last := (lt_rounds (l := l) slot).mp (Nat.sub_one_lt_of_lt used)
      have reached := all _ (Finset.mem_range.mpr last)
      rw [Nat.add_mul_mod_self_right,Nat.mod_eq_of_lt slot,
        Nat.add_mul_div_right _ _ sound.slots,Nat.div_eq_of_lt slot] at reached
      rw [Nat.succ_mul]
      omega
  · intro all k member
    obtain ⟨slot,round⟩ := round_lt sound (Finset.mem_range.mp member)
    have reached := all _ slot
    rw [Nat.succ_mul] at reached
    omega

/-- One more result of slot `s`. -/
theorem arrived_receive (sound : tr.Sound) (slot : s < tr.cfg.numSlots)
    (begun : ended * tr.rounds l s ≤ got s) (more : got s < (ended + 1) * tr.rounds l s) :
    tr.offset l s (got s) ∉ tr.arrived l ended got ∧
      tr.arrived l ended (Function.update got s (got s + 1)) =
        insert (tr.offset l s (got s)) (tr.arrived l ended got) := by
  rw [Nat.succ_mul] at more
  obtain ⟨r,split⟩ := Nat.exists_eq_add_of_le begun
  have within : r < tr.rounds l s := by omega
  have round : got s % tr.rounds l s = r := by
    rw [split]; exact (Lanes.of_pass within).1
  have mod : Lanes.item (tr.pkts l) tr.cfg.numSlots s (got s) % tr.cfg.numSlots = s :=
    Lanes.item_mod slot _ _
  have div : Lanes.item (tr.pkts l) tr.cfg.numSlots s (got s) / tr.cfg.numSlots = r :=
    (Lanes.item_div slot _ _).trans round
  have inside : Lanes.item (tr.pkts l) tr.cfg.numSlots s (got s) < tr.pkts l :=
    Lanes.item_lt slot (Nat.zero_lt_of_lt within) _
  constructor
  · rw [offset,mem_arrived sound,mod,div]
    omega
  · ext o
    constructor
    · intro member
      obtain ⟨k,found,rfl⟩ := Finset.mem_image.mp member
      have fresh := (mem_arrived sound).mp member
      rcases eq_or_ne (k % tr.cfg.numSlots) s with same | other
      · rw [same,Function.update_self] at fresh
        rcases Nat.lt_or_ge (ended * tr.rounds l s + k / tr.cfg.numSlots) (got s) with old | new
        · exact Finset.mem_insert_of_mem ((mem_arrived sound).mpr ⟨fresh.1,by rwa [same]⟩)
        · have index := Nat.mod_add_div k tr.cfg.numSlots
          have item := Nat.mod_add_div
            (Lanes.item (tr.pkts l) tr.cfg.numSlots s (got s)) tr.cfg.numSlots
          rw [same,show k / tr.cfg.numSlots = r by omega] at index
          rw [mod,div] at item
          rw [offset,← item,index]
          exact Finset.mem_insert_self _ _
      · rw [Function.update_of_ne other] at fresh
        exact Finset.mem_insert_of_mem ((mem_arrived sound).mpr fresh)
    · intro member
      rcases Finset.mem_insert.mp member with rfl | old
      · rw [offset,mem_arrived sound,mod,div,Function.update_self]
        omega
      · obtain ⟨k,found,rfl⟩ := Finset.mem_image.mp old
        have kept := (mem_arrived sound).mp old
        rw [mem_arrived sound]
        rcases eq_or_ne (k % tr.cfg.numSlots) s with same | other
        · rw [same] at kept ⊢
          rw [Function.update_self]
          omega
        · rwa [Function.update_of_ne other]

end Traffic

/-- A worker that has begun `begun` allreduces of a layer and ended `ended` of them. `sent` and
`got` count the packets of each slot through all allreduces. -/
structure Sender (tr : Traffic) (l : Layer) (begun ended : Nat) (sent got : Nat → Nat)
    (received : Finset Nat) : Prop where
  ended_le : ended ≤ begun
  begun_le : begun ≤ ended + 1
  base : ∀ s < tr.cfg.numSlots, ended * tr.rounds l s ≤ got s
  top : ∀ s < tr.cfg.numSlots, got s ≤ begun * tr.rounds l s
  sent : ∀ s < tr.cfg.numSlots, sent s = min (got s + (begun - ended)) (begun * tr.rounds l s)
  opened : ended < begun → ∃ s < tr.cfg.numSlots, got s < begun * tr.rounds l s
  received : received = tr.arrived l ended got

namespace Sender
variable {tr : Traffic} {l : Layer} {begun ended : Nat} {sent got : Nat → Nat}
  {received : Finset Nat}

theorem ground (sound : tr.Sound) (l : Layer) :
    Sender tr l 0 0 (fun _ => 0) (fun _ => 0) ∅ := by
  refine ⟨Nat.le_refl 0,Nat.zero_le _,fun s _ => ?_,fun s _ => ?_,fun s _ => ?_,
    fun busy => absurd busy (Nat.lt_irrefl 0),?_⟩
  · rw [Nat.zero_mul]
  · rw [Nat.zero_mul]
  · simp
  · rw [Traffic.arrived_idle sound]
    intro s _
    rw [Nat.zero_mul]

/-- A packet is outstanding only while an allreduce runs, and it belongs to that one. -/
theorem running (sender : Sender tr l begun ended sent got received) (slot : s < tr.cfg.numSlots)
    (outstanding : got s < sent s) : begun = ended + 1 ∧ got s < (ended + 1) * tr.rounds l s := by
  have base := sender.base s slot
  have top := sender.top s slot
  have sent := sender.sent s slot
  have ended_le := sender.ended_le
  have begun_le := sender.begun_le
  rcases Nat.lt_or_ge ended begun with busy | idle
  · obtain rfl : begun = ended + 1 := by omega
    exact ⟨rfl,by omega⟩
  · obtain rfl : begun = ended := by omega
    omega

theorem idle (sender : Sender tr l ended ended sent got received) (slot : s < tr.cfg.numSlots) :
    sent s = got s ∧ got s = ended * tr.rounds l s := by
  have base := sender.base s slot
  have top := sender.top s slot
  have sent := sender.sent s slot
  omega

theorem arrival (sound : tr.Sound) (sender : Sender tr l begun ended sent got received)
    (slot : s < tr.cfg.numSlots) (more : got s < (ended + 1) * tr.rounds l s) :
    tr.offset l s (got s) ∉ received ∧
      (insert (tr.offset l s (got s)) received).card ≤ tr.pkts l := by
  obtain ⟨fresh,after⟩ := Traffic.arrived_receive sound slot (sender.base s slot) more
  rw [sender.received,← after]
  exact ⟨fresh,Traffic.card_arrived_le _ _⟩

theorem launch (sound : tr.Sound) (sender : Sender tr l ended ended sent got received)
    (some : 0 < tr.pkts l) :
    Sender tr l (ended + 1) ended
      (fun s => if s < tr.pkts l then sent s + 1 else sent s) got received := by
  refine ⟨Nat.le_succ _,Nat.le_refl _,sender.base,fun s slot => ?_,fun s slot => ?_,fun _ => ?_,
    sender.received⟩
  · have top := sender.top s slot
    rw [Nat.succ_mul]
    omega
  · obtain ⟨level,base⟩ := sender.idle slot
    have used : 0 < tr.rounds l s ↔ s < tr.pkts l := Lanes.rounds_pos slot
    rw [level,base,Nat.succ_mul]
    split <;> omega
  · have used : 0 < tr.rounds l 0 := (Lanes.rounds_pos sound.slots).mpr some
    refine ⟨0,sound.slots,?_⟩
    rw [(sender.idle sound.slots).2,Nat.succ_mul]
    omega

theorem receive_last (sound : tr.Sound) (sender : Sender tr l (ended + 1) ended sent got received)
    (slot : s < tr.cfg.numSlots) (more : got s < (ended + 1) * tr.rounds l s)
    (full : (insert (tr.offset l s (got s)) received).card = tr.pkts l) :
    Sender tr l (ended + 1) (ended + 1) sent (Function.update got s (got s + 1)) ∅ := by
  rw [sender.received,← (Traffic.arrived_receive sound slot (sender.base s slot) more).2] at full
  have all := (Traffic.card_arrived sound).mp full
  have level (i : Nat) (lane : i < tr.cfg.numSlots) :
      Function.update got s (got s + 1) i = (ended + 1) * tr.rounds l i := by
    have reached := all i lane
    have top := sender.top i lane
    rcases eq_or_ne i s with rfl | other
    · rw [Function.update_self] at reached ⊢; omega
    · rw [Function.update_of_ne other] at reached ⊢; omega
  refine ⟨Nat.le_refl _,Nat.le_succ _,fun i lane => (level i lane).ge,fun i lane => (level i lane).le,
    fun i lane => ?_,fun busy => absurd busy (Nat.lt_irrefl _),(Traffic.arrived_idle sound level).symm⟩
  have sent := sender.sent i lane
  have top := sender.top i lane
  have reached := level i lane
  rcases eq_or_ne i s with rfl | other
  · rw [Function.update_self] at reached ⊢; omega
  · rw [Function.update_of_ne other] at reached ⊢; omega

/-- A result after which the allreduce goes on; the slot sends again if it has packets left. -/
theorem receive_more (sound : tr.Sound) (sender : Sender tr l (ended + 1) ended sent got received)
    (slot : s < tr.cfg.numSlots) (more : got s < (ended + 1) * tr.rounds l s)
    (rest : (insert (tr.offset l s (got s)) received).card ≠ tr.pkts l) :
    Sender tr l (ended + 1) ended
      (Function.update sent s (min (got s + 2) ((ended + 1) * tr.rounds l s)))
      (Function.update got s (got s + 1)) (insert (tr.offset l s (got s)) received) := by
  have arrived := (Traffic.arrived_receive sound slot (sender.base s slot) more).2
  have open' : ∃ i < tr.cfg.numSlots,
      Function.update got s (got s + 1) i < (ended + 1) * tr.rounds l i := by
    by_contra none
    apply rest
    rw [sender.received,← arrived]
    refine (Traffic.card_arrived sound).mpr fun i lane => ?_
    exact Nat.not_lt.mp fun behind => none ⟨i,lane,behind⟩
  refine ⟨sender.ended_le,sender.begun_le,fun i lane => ?_,fun i lane => ?_,fun i lane => ?_,
    fun _ => open',by rw [sender.received,arrived]⟩
  all_goals
    have base := sender.base i lane
    have top := sender.top i lane
    have sent := sender.sent i lane
    rcases eq_or_ne i s with rfl | other
  · rw [Function.update_self]; omega
  · rwa [Function.update_of_ne other]
  · rw [Function.update_self]; omega
  · rwa [Function.update_of_ne other]
  · rw [Function.update_self,Function.update_self]; omega
  · rwa [Function.update_of_ne other,Function.update_of_ne other]

end Sender
end CloudSim
