import CloudSim.Coverage

/-! The offsets of an unchunked allreduce cover the gradient in every order of the results
exactly when no wrap-around changes them. -/
namespace CloudSim.Exchange

variable {cfg : Config} {objs : Objects} {w : Worker} {r : TensorRef} {s s' : Exchange}

/-- Each offset past the first of its slot was sent when the one before it was answered. -/
structure Striding (cfg : Config) (objs : Objects) (r : TensorRef) (s : Exchange) : Prop where
  regular : Regular cfg objs r s
  first : ∀ k < cfg.pkts (objs.tensor r).size, k < cfg.numSlots → k * cfg.numUpdates ∈ s.sent
  follow : ∀ k, k * cfg.numUpdates ∈ s.answered → k + cfg.numSlots < cfg.pkts (objs.tensor r).size →
    (k + cfg.numSlots) * cfg.numUpdates ∈ s.sent
  origin : ∀ k, (k + cfg.numSlots) * cfg.numUpdates ∈ s.sent → k * cfg.numUpdates ∈ s.answered

namespace Striding

theorem in_turn (striding : Striding cfg objs r s) (one : cfg.numSlots = 1)
    (sent : k * cfg.numUpdates ∈ s.sent) : ∀ j < k, j * cfg.numUpdates ∈ s.answered := by
  induction k with
  | zero => exact fun j below => absurd below (Nat.not_lt_zero j)
  | succ k ih =>
    intro j below
    have before := striding.origin k (by rwa [one])
    rcases Nat.lt_succ_iff_lt_or_eq.mp below with earlier | rfl
    · exact ih (striding.regular.mem_sent.mpr (Or.inr before)) j earlier
    · exact before

theorem complete (striding : Striding cfg objs r s) (done : s.unanswered = [])
    (slots : 0 < cfg.numSlots) :
    ∀ k < cfg.pkts (objs.tensor r).size, k * cfg.numUpdates ∈ s.sent := by
  intro k
  induction k using Nat.strongRecOn with
  | _ k ih =>
    intro inside
    rcases Nat.lt_or_ge k cfg.numSlots with first | later
    · exact striding.first k inside first
    · obtain ⟨j,rfl⟩ := Nat.exists_eq_add_of_le' later
      apply striding.follow j _ inside
      have before := striding.regular.mem_sent.mp (ih j (by omega) (by omega))
      simpa [done] using before

end Striding

section covers
variable (updates : 0 < cfg.numUpdates) (slots : 0 < cfg.numSlots)
  (covers : cfg.Covers (objs.tensor r).size)
include updates covers

theorem Covers.launch_sent : (launch cfg objs w r).sent =
    (List.range (min cfg.numSlots (cfg.pkts (objs.tensor r).size))).map (· * cfg.numUpdates) := by
  rw [Exchange.launch_sent,covers.loop_eq updates]
  refine List.map_congr_left fun k member => ?_
  have below := Nat.lt_of_lt_of_le (List.mem_range.mp member) (Nat.min_le_right _ _)
  exact u32_of_lt (covers.offset_lt below)

theorem Covers.mem_launch : k * cfg.numUpdates ∈ (launch cfg objs w r).sent ↔
    k < cfg.numSlots ∧ k < cfg.pkts (objs.tensor r).size := by
  rw [Covers.launch_sent updates covers,List.mem_map]
  constructor
  · rintro ⟨j,member,same⟩
    obtain rfl := Nat.eq_of_mul_eq_mul_right updates same
    exact Nat.lt_min.mp (List.mem_range.mp member)
  · intro both
    exact ⟨k,List.mem_range.mpr (Nat.lt_min.mpr both),rfl⟩

theorem launch_striding (fresh : w.received (u32 (r.key cfg)) = ∅)
    (positive : 0 < (objs.tensor r).size) :
    Striding cfg objs r (launch cfg objs w r) where
  regular :=
    { sound := launch_sound fresh
      distinct := by
        rw [Covers.launch_sent updates covers]
        exact List.nodup_range.map fun _ _ same => Nat.eq_of_mul_eq_mul_right updates same
      inside := by
        intro o member
        rw [Covers.launch_sent updates covers] at member
        obtain ⟨k,inside,rfl⟩ := List.mem_map.mp member
        apply (Config.mem_offsets_mul updates).mpr
        exact (Nat.lt_min.mp (List.mem_range.mp inside)).2
      released := Or.inl ⟨Config.pkts_pos updates positive,rfl⟩ }
  first k inside slot := (Covers.mem_launch updates covers).mpr ⟨slot,inside⟩
  follow k member := nomatch member
  origin k member := by
    have := ((Covers.mem_launch updates covers).mp member).1
    omega

include slots

/-- The answer to the packet of offset `k * NUM_UPDATES` sends the slot's next packet when there
is one, and nothing otherwise, as long as it is not the last answer. -/
theorem Striding.reply_eq (striding : Striding cfg objs r s)
    (inside : k < cfg.pkts (objs.tensor r).size) (sent : k * cfg.numUpdates ∈ s.sent)
    (more : s.answered.length + 1 < cfg.pkts (objs.tensor r).size) :
    reply cfg (objs.tensor r).size (k * cfg.numUpdates) =
      if k + cfg.numSlots < cfg.pkts (objs.tensor r).size then
        [(k + cfg.numSlots) * cfg.numUpdates] else [] := by
  by_cases within : k + cfg.numSlots < cfg.pkts (objs.tensor r).size
  · have start : Worker.nextStart cfg (k * cfg.numUpdates) =
        (k + cfg.numSlots) * cfg.numUpdates := by
      rw [Config.nextStart_mul,u32_of_lt (covers.offset_lt within)]
    have fits := covers.size (by omega)
    have below := (Config.lt_pkts updates).mp within
    rw [if_pos within,reply,start,u32_of_lt fits,if_neg (by omega)]
  · rw [if_neg within,reply,if_pos]
    rcases Nat.lt_or_ge 1 cfg.numSlots with several | one
    · exact covers.next (by omega) several k inside (by omega)
    · -- with one slot only the last answer has no packet after it
      have turns := striding.in_turn (by omega) sent
      have part : (List.range k).map (· * cfg.numUpdates) ⊆ s.answered := by
        intro o member
        obtain ⟨j,below,rfl⟩ := List.mem_map.mp member
        exact turns j (List.mem_range.mp below)
      have distinct : ((List.range k).map (· * cfg.numUpdates)).Nodup :=
        List.nodup_range.map fun _ _ same => Nat.eq_of_mul_eq_mul_right updates same
      have length := (distinct.subperm part).length_le
      rw [List.length_map,List.length_range] at length
      omega

theorem Striding.step (numSlots : cfg.numSlots < 2^32) (striding : Striding cfg objs r s)
    (taken : answer cfg (objects cfg objs r) p s = some s') : Striding cfg objs r s' := by
  have regular := striding.regular
  have member := mem_of_answer taken
  have waiting := regular.waiting member
  have expected := Config.pktsExpected_of_pkts updates (covers.pkts_lt updates numSlots)
  have isSent : p.offset ∈ s.sent :=
    regular.mem_sent.mpr (Or.inl (List.mem_map_of_mem member))
  obtain ⟨k,range,offset⟩ := List.mem_map.mp (regular.inside isSent)
  have inside := List.mem_range.mp range
  have fresh : k * cfg.numUpdates ∉ s.answered := by
    rw [offset]
    exact fun old => (List.nodup_append.mp regular.split).2.2 _ (List.mem_map_of_mem member) _ old rfl
  obtain ⟨t,result,sound,answered,outcome⟩ :=
    answer_spec regular.sound regular.distinct waiting.2 member
  obtain rfl := Option.some.inj (result.symm.trans taken)
  rw [expected,← offset] at outcome
  rw [← offset] at answered isSent
  have grown (o) (old : o ∈ s.answered) : o ∈ t.answered :=
    answered ▸ List.mem_append_left _ old
  have length : t.answered.length = s.answered.length + 1 := by simp [answered]
  rcases outcome with ⟨last,sent,released⟩ | ⟨more,sent,released⟩
  · have next : Regular cfg objs r t :=
      ⟨sound,by rw [sent]; exact regular.distinct,by rw [sent]; exact regular.inside,
        Or.inr ⟨by omega,released⟩⟩
    have all : cfg.pkts (objs.tensor r).size ≤ t.sent.length := by
      have lengths := sound.sent.length_eq
      rw [List.length_append] at lengths
      omega
    have every := next.full all
    refine ⟨next,?_,fun j _ below => ?_,fun j old => ?_⟩
    · rw [sent]
      exact striding.first
    · exact every.mem_iff.mpr ((Config.mem_offsets_mul updates).mpr below)
    · rw [sent] at old
      exact grown _ (striding.origin j old)
  · have reply := striding.reply_eq updates slots covers inside isSent (by omega)
    rw [reply] at sent
    by_cases within : k + cfg.numSlots < cfg.pkts (objs.tensor r).size
    · rw [if_pos within] at sent
      refine ⟨⟨sound,?_,?_,Or.inl ⟨by omega,released⟩⟩,?_,?_,?_⟩
      · rw [sent]
        refine List.nodup_append.mpr ⟨regular.distinct,List.nodup_singleton _,?_⟩
        rintro o old _ new rfl
        obtain rfl := List.mem_singleton.mp new
        exact fresh (striding.origin k old)
      · rw [sent]
        apply List.append_subset.mpr
        refine ⟨regular.inside,fun o new => ?_⟩
        obtain rfl := List.mem_singleton.mp new
        exact (Config.mem_offsets_mul updates).mpr within
      · intro j below slot
        rw [sent]
        exact List.mem_append_left _ (striding.first j below slot)
      · intro j old below
        rw [sent]
        rw [answered] at old
        rcases List.mem_append.mp old with before | new
        · exact List.mem_append_left _ (striding.follow j before below)
        · obtain rfl := Nat.eq_of_mul_eq_mul_right updates (List.mem_singleton.mp new)
          exact List.mem_append_right _ (List.mem_singleton_self _)
      · intro j old
        rw [sent] at old
        rcases List.mem_append.mp old with before | new
        · exact grown _ (striding.origin j before)
        · have same := Nat.eq_of_mul_eq_mul_right updates (List.mem_singleton.mp new)
          obtain rfl : j = k := by omega
          rw [answered]
          exact List.mem_append_right _ (List.mem_singleton_self _)
    · rw [if_neg within,List.append_nil] at sent
      refine ⟨⟨sound,by rw [sent]; exact regular.distinct,by rw [sent]; exact regular.inside,
        Or.inl ⟨by omega,released⟩⟩,?_,?_,?_⟩
      · rw [sent]
        exact striding.first
      · intro j old below
        rw [sent]
        rw [answered] at old
        rcases List.mem_append.mp old with before | new
        · exact striding.follow j before below
        · obtain rfl := Nat.eq_of_mul_eq_mul_right updates (List.mem_singleton.mp new)
          exact absurd below within
      · intro j old
        rw [sent] at old
        exact grown _ (striding.origin j old)

theorem Covers.covered (numSlots : cfg.numSlots < 2^32)
    (fresh : w.received (u32 (r.key cfg)) = ∅) (positive : 0 < (objs.tensor r).size) :
    Covered cfg objs w r := by
  have expected := Config.pktsExpected_of_pkts updates (covers.pkts_lt updates numSlots)
  have always (t) (run : Reaches cfg objs w r t) : Striding cfg objs r t :=
    run.invariant (fun p s s' holds _ taken => holds.step updates slots covers numSlots taken)
      (launch_striding updates covers fresh positive)
  refine ⟨?_,fun t run => (always t run).regular.distinct,
    fun t run => (always t run).regular.inside,fun t run done => ?_⟩
  · rw [expected,Config.offsets_length]
  · have striding := always t run
    have regular := striding.regular
    have part : cfg.offsets (objs.tensor r).size ⊆ t.sent := by
      intro o member
      obtain ⟨k,range,rfl⟩ := List.mem_map.mp member
      exact striding.complete done slots k (List.mem_range.mp range)
    have length := ((Config.offsets_distinct updates _).subperm part).length_le
    rw [Config.offsets_length] at length
    have lengths := regular.sound.sent.length_eq
    rw [done,List.map_nil,List.nil_append] at lengths
    refine ⟨regular.full length,?_⟩
    rcases regular.released with ⟨few,_⟩ | ⟨_,released⟩
    · omega
    · exact released

end covers

/-! The other direction. A run whose answers are chosen well meets every wrap-around. -/

def Open (s : Exchange) (o : Nat) : Prop := o ∈ s.unanswered.map Packet.offset

theorem Regular.open_iff (regular : Regular cfg objs r s) :
    Open s o ↔ o ∈ s.sent ∧ o ∉ s.answered := by
  rw [regular.mem_sent]
  constructor
  · intro missing
    exact ⟨Or.inl missing,fun old => (List.nodup_append.mp regular.split).2.2 _ missing _ old rfl⟩
  · rintro ⟨missing | old,fresh⟩
    · exact missing
    · exact absurd old fresh

theorem Covered.expected_eq (covered : Covered cfg objs w r) :
    Worker.pktsExpected cfg (objs.tensor r).size = cfg.pkts (objs.tensor r).size := by
  rw [covered.expected,Config.offsets_length]

theorem off_slot {cfg : Config} (updates : 0 < cfg.numUpdates) (slotted : a < cfg.numSlots)
    (ne : a ≠ k % cfg.numSlots) (m : Nat) :
    a * cfg.numUpdates ≠ (k % cfg.numSlots + m * cfg.numSlots) * cfg.numUpdates := by
  intro same
  have mods := congrArg (· % cfg.numSlots) (Nat.eq_of_mul_eq_mul_right updates same)
  simp [Nat.mod_eq_of_lt slotted] at mods
  exact ne mods

section covered
variable (fresh : w.received (u32 (r.key cfg)) = ∅) (covered : Covered cfg objs w r)
  (updates : 0 < cfg.numUpdates) (positive : 0 < (objs.tensor r).size)
include fresh covered updates positive

theorem Covered.regular (run : Reaches cfg objs w r s) : Regular cfg objs r s := by
  induction run with
  | nil =>
    have start : Reaches cfg objs w r (launch cfg objs w r) := .nil
    exact ⟨launch_sound fresh,covered.distinct _ start,covered.inside _ start,
      Or.inl ⟨Config.pkts_pos updates positive,rfl⟩⟩
  | @snoc t p u run allowed taken ih =>
    have after : Reaches cfg objs w r u := .snoc run allowed taken
    have member := mem_of_answer taken
    have waiting := ih.waiting member
    obtain ⟨v,result,sound,answered,outcome⟩ :=
      answer_spec ih.sound ih.distinct waiting.2 member
    obtain rfl := Option.some.inj (result.symm.trans taken)
    rw [covered.expected_eq] at outcome
    have length : v.answered.length = t.answered.length + 1 := by simp [answered]
    refine ⟨sound,covered.distinct _ after,covered.inside _ after,?_⟩
    rcases outcome with ⟨last,_,released⟩ | ⟨more,_,released⟩
    · exact Or.inr ⟨by omega,released⟩
    · exact Or.inl ⟨by omega,released⟩

theorem Covered.arrive (run : Reaches cfg objs w r s) (missing : Open s o) :
    ∃ s', Reaches cfg objs w r s' ∧ s'.answered = s.answered ++ [o] ∧
      (s.answered.length + 1 ≠ cfg.pkts (objs.tensor r).size →
        s'.sent = s.sent ++ reply cfg (objs.tensor r).size o) ∧
      (s'.sent = s.sent ∨ s'.sent = s.sent ++ reply cfg (objs.tensor r).size o) := by
  have regular := covered.regular fresh updates positive run
  obtain ⟨p,member,rfl⟩ := List.mem_map.mp missing
  obtain ⟨t,result,_,answered,outcome⟩ :=
    answer_spec regular.sound regular.distinct (regular.waiting member).2 member
  rw [covered.expected_eq] at outcome
  refine ⟨t,.snoc run trivial result,answered,?_⟩
  rcases outcome with ⟨last,sent,_⟩ | ⟨_,sent,_⟩
  · exact ⟨fun more => absurd last more,Or.inl sent⟩
  · exact ⟨fun _ => sent,Or.inr sent⟩

/-- An offset is sent by the sending loop, or it is a start below the cut size. -/
theorem Covered.sent_origin (run : Reaches cfg objs w r s) (member : o ∈ s.sent) :
    o ∈ (launch cfg objs w r).sent ∨ ∃ o', o = Worker.nextStart cfg o' ∧
      o < u32 (objs.tensor r).size := by
  induction run with
  | nil => exact Or.inl member
  | @snoc t p u run _ taken ih =>
    have inside := mem_of_answer taken
    have regular := covered.regular fresh updates positive run
    obtain ⟨v,result,_,_,outcome⟩ :=
      answer_spec regular.sound regular.distinct (regular.waiting inside).2 inside
    obtain rfl := Option.some.inj (result.symm.trans taken)
    rcases outcome with ⟨_,sent,_⟩ | ⟨_,sent,_⟩
    · exact ih (sent ▸ member)
    · rw [sent] at member
      rcases List.mem_append.mp member with old | new
      · exact ih old
      · rw [reply] at new
        split at new
        · cases new
        · obtain rfl := List.mem_singleton.mp new
          exact Or.inr ⟨_,rfl,by omega⟩

theorem Covered.drains (run : Reaches cfg objs w r s) :
    ∃ s', Reaches cfg objs w r s' ∧ s'.unanswered = [] := by
  have bound := (covered.regular fresh updates positive run).released
  obtain ⟨left,total⟩ : ∃ n, s.answered.length + n = cfg.pkts (objs.tensor r).size :=
    ⟨_,Nat.add_sub_of_le (by omega)⟩
  induction left generalizing s with
  | zero =>
    refine ⟨s,run,List.eq_nil_iff_forall_not_mem.mpr fun p member => ?_⟩
    have := (covered.regular fresh updates positive run).waiting member
    omega
  | succ left ih =>
    rcases List.eq_nil_or_concat s.unanswered with done | ⟨_,p,more⟩
    · exact ⟨s,run,done⟩
    · have missing : Open s p.offset := List.mem_map_of_mem (by simp [more])
      obtain ⟨t,after,answered,_⟩ := covered.arrive fresh updates positive run missing
      have length : t.answered.length = s.answered.length + 1 := by simp [answered]
      exact ih after (covered.regular fresh updates positive after).released (by omega)

theorem Covered.offsets_fit :
    (cfg.pkts (objs.tensor r).size - 1) * cfg.numUpdates < 2^32 := by
  have start : Reaches cfg objs w r (launch cfg objs w r) := .nil
  obtain ⟨t,run,done⟩ := covered.drains fresh updates positive start
  have count := Config.pkts_pos updates positive
  have member : (cfg.pkts (objs.tensor r).size - 1) * cfg.numUpdates ∈ t.sent := by
    apply (covered.complete t run done).1.mem_iff.mpr
    apply (Config.mem_offsets_mul updates).mpr
    omega
  rcases covered.sent_origin fresh updates positive run member with first | ⟨_,_,below⟩
  · rw [launch_sent] at first
    obtain ⟨k,_,same⟩ := List.mem_map.mp first
    rw [← same]
    exact u32_lt _
  · exact Nat.lt_trans below (u32_lt _)

theorem Covered.loop_stops (short : cfg.pkts (objs.tensor r).size < cfg.numSlots) :
    (objs.tensor r).size ≤ u32 (cfg.pkts (objs.tensor r).size * cfg.numUpdates) := by
  have start : Reaches cfg objs w r (launch cfg objs w r) := .nil
  have length := (covered.regular fresh updates positive start).length_le
  by_contra within
  obtain ⟨rest,loop⟩ := Config.takeWhile_range
    (fun slot => u32 (slot * cfg.numUpdates) < (objs.tensor r).size)
    (m := cfg.pkts (objs.tensor r).size + 1) cfg.numSlots (fun k below => by
      apply decide_eq_true
      rcases Nat.lt_succ_iff_lt_or_eq.mp below with inside | rfl
      · have last := covered.offsets_fit fresh updates positive
        have part := Nat.mul_le_mul_right cfg.numUpdates
          (show k ≤ cfg.pkts (objs.tensor r).size - 1 by omega)
        rw [u32_of_lt (by omega)]
        exact (Config.lt_pkts updates).mp inside
      · omega) short
  rw [launch_sent,List.length_map,← loop,List.length_append,List.length_range] at length
  omega

theorem Covered.mem_launch (inside : k < cfg.pkts (objs.tensor r).size) :
    k * cfg.numUpdates ∈ (launch cfg objs w r).sent ↔ k < cfg.numSlots := by
  have last := covered.offsets_fit fresh updates positive
  have small (j : Nat) (below : j < cfg.pkts (objs.tensor r).size) :
      u32 (j * cfg.numUpdates) = j * cfg.numUpdates := by
    have part := Nat.mul_le_mul_right cfg.numUpdates
      (show j ≤ cfg.pkts (objs.tensor r).size - 1 by omega)
    exact u32_of_lt (by omega)
  rw [launch_sent]
  constructor
  · intro member
    obtain ⟨slot,looped,same⟩ := List.mem_map.mp member
    have slotted := List.mem_range.mp ((List.takeWhile_prefix _).subset looped)
    by_contra past
    rw [small slot (by omega)] at same
    have := Nat.eq_of_mul_eq_mul_right updates same
    omega
  · intro slotted
    obtain ⟨rest,loop⟩ := Config.takeWhile_range
      (fun slot => u32 (slot * cfg.numUpdates) < (objs.tensor r).size) (m := k + 1) cfg.numSlots
      (fun j below => by
        apply decide_eq_true
        rw [small j (by omega)]
        exact (Config.lt_pkts updates).mp (by omega)) slotted
    refine List.mem_map.mpr ⟨k,?_,small k inside⟩
    rw [← loop]
    exact List.mem_append_left _ (List.mem_range.mpr (Nat.lt_succ_self k))

theorem Covered.size_fits (slots : 0 < cfg.numSlots) (numUpdates : cfg.numUpdates < 2^32)
    (many : cfg.numSlots < cfg.pkts (objs.tensor r).size) : (objs.tensor r).size < 2^32 := by
  by_contra large
  have start : Reaches cfg objs w r (launch cfg objs w r) := .nil
  obtain ⟨t,run,done⟩ := covered.drains fresh updates positive start
  have member : cfg.numSlots * cfg.numUpdates ∈ t.sent := by
    apply (covered.complete t run done).1.mem_iff.mpr
    exact (Config.mem_offsets_mul updates).mpr many
  have last := covered.offsets_fit fresh updates positive
  have size := Config.size_le updates (objs.tensor r).size
  have whole : cfg.pkts (objs.tensor r).size * cfg.numUpdates =
      (cfg.pkts (objs.tensor r).size - 1) * cfg.numUpdates + cfg.numUpdates := by
    rw [← Nat.succ_mul,Nat.succ_eq_add_one,Nat.sub_add_cancel (by omega)]
  have cut : u32 (objs.tensor r).size = (objs.tensor r).size - 2^32 := by
    rw [u32,Nat.mod_eq_sub_mod (by omega),Nat.mod_eq_of_lt (by omega)]
  rcases covered.sent_origin fresh updates positive run member with first | ⟨_,_,below⟩
  · exact Nat.lt_irrefl _ ((covered.mem_launch fresh updates positive many).mp first)
  · -- what the cut size still lets through is below one packet
    have stride := Nat.le_mul_of_pos_left cfg.numUpdates slots
    omega

theorem Covered.answer_open (run : Reaches cfg objs w r s) (missing : Open s o) (other : Open s b)
    (apart : b ≠ o) : ∃ s', Reaches cfg objs w r s' ∧ s'.answered = s.answered ++ [o] ∧
      s'.sent = s.sent ++ reply cfg (objs.tensor r).size o := by
  have regular := covered.regular fresh updates positive run
  obtain ⟨t,after,answered,sent,_⟩ := covered.arrive fresh updates positive run missing
  refine ⟨t,after,answered,sent ?_⟩
  have pair : [o,b].Nodup := by simp [apart.symm]
  have both : [o,b] ⊆ s.unanswered.map Packet.offset := by
    intro a member
    rcases List.mem_pair.mp member with rfl | rfl
    · exact missing
    · exact other
  have two : 2 ≤ (s.unanswered.map Packet.offset).length := (pair.subperm both).length_le
  have lengths := regular.sound.sent.length_eq
  have bound := regular.length_le
  rw [List.length_append] at lengths
  omega

/-- An answer that sends one packet more: its start is new, and only what was answered is no
longer missing. -/
theorem Covered.answer_one (run : Reaches cfg objs w r s) (missing : Open s o) (other : Open s b)
    (apart : b ≠ o) (one : reply cfg (objs.tensor r).size o = [x]) :
    ∃ s', Reaches cfg objs w r s' ∧ s'.sent = s.sent ++ [x] ∧ x ∉ s.sent ∧ Open s' x ∧
      ∀ a, Open s a → a ≠ o → Open s' a := by
  obtain ⟨s',after,answered,sent⟩ :=
    covered.answer_open fresh updates positive run missing other apart
  rw [one] at sent
  have before := covered.regular fresh updates positive run
  have regular := covered.regular fresh updates positive after
  have distinct := regular.distinct
  rw [sent] at distinct
  have new : x ∉ s.sent := fun old =>
    (List.nodup_append.mp distinct).2.2 _ old _ (List.mem_singleton_self _) rfl
  refine ⟨s',after,sent,new,regular.open_iff.mpr ⟨?_,fun past => ?_⟩,fun a still differs =>
    regular.open_iff.mpr ⟨?_,fun past => ?_⟩⟩
  · rw [sent]
    exact List.mem_append_right _ (List.mem_singleton_self _)
  · rw [answered] at past
    rcases List.mem_append.mp past with past | now
    · exact new (before.mem_sent.mpr (Or.inr past))
    · rw [List.mem_singleton.mp now] at new
      exact new (before.open_iff.mp missing).1
  · rw [sent]
    exact List.mem_append_left _ (before.open_iff.mp still).1
  · rw [answered] at past
    rcases List.mem_append.mp past with past | now
    · exact (before.open_iff.mp still).2 past
    · exact differs (List.mem_singleton.mp now)

/-- The results of one slot can arrive up to any of its packets while all others are missing. -/
theorem Covered.drive (slots : 0 < cfg.numSlots) (numUpdates : cfg.numUpdates < 2^32)
    (run : Reaches cfg objs w r s) (missing : Open s (i * cfg.numUpdates)) (other : Open s b)
    (inside : i + n * cfg.numSlots < cfg.pkts (objs.tensor r).size)
    (apart : ∀ m < n, b ≠ (i + m * cfg.numSlots) * cfg.numUpdates) :
    ∃ s', Reaches cfg objs w r s' ∧ Open s' ((i + n * cfg.numSlots) * cfg.numUpdates) ∧
      s.sent ⊆ s'.sent ∧ (∀ m ≤ n, (i + m * cfg.numSlots) * cfg.numUpdates ∈ s'.sent) ∧
      ∀ a, Open s a → (∀ m < n, a ≠ (i + m * cfg.numSlots) * cfg.numUpdates) → Open s' a := by
  induction n with
  | zero =>
    have regular := covered.regular fresh updates positive run
    refine ⟨s,run,by simpa using missing,List.Subset.refl _,fun m le => ?_,fun a open' _ => open'⟩
    obtain rfl := Nat.le_zero.mp le
    simpa using (regular.open_iff.mp missing).1
  | succ n ih =>
    have step : i + (n + 1) * cfg.numSlots = i + n * cfg.numSlots + cfg.numSlots := by
      rw [Nat.succ_mul]
      omega
    obtain ⟨t,reached,here,old,passed,kept⟩ :=
      ih (by omega) fun m below => apart m (Nat.lt_succ_of_lt below)
    have aside := kept b other fun m below => apart m (Nat.lt_succ_of_lt below)
    have size := covered.size_fits fresh updates positive slots numUpdates (by omega)
    have below := (Config.lt_pkts updates).mp inside
    have start : reply cfg (objs.tensor r).size ((i + n * cfg.numSlots) * cfg.numUpdates) =
        [(i + (n + 1) * cfg.numSlots) * cfg.numUpdates] := by
      rw [reply,Config.nextStart_mul,← step,u32_of_lt size,u32_of_lt (by omega),
        if_neg (by omega)]
    obtain ⟨u,after,sent,_,next,still⟩ := covered.answer_one fresh updates positive reached here
      aside (apart n (Nat.lt_succ_self n)) start
    refine ⟨u,after,next,?_,fun m le => ?_,fun a open' differs => ?_⟩
    · rw [sent]
      exact fun a member => List.mem_append_left _ (old member)
    · rw [sent]
      rcases Nat.lt_or_eq_of_le le with lt | rfl
      · exact List.mem_append_left _ (passed m (Nat.le_of_lt_succ lt))
      · exact List.mem_append_right _ (List.mem_singleton_self _)
    · exact still a (kept a open' fun m lt => differs m (Nat.lt_succ_of_lt lt))
        (differs n (Nat.lt_succ_self n))

theorem Covered.launch_open (slotted : a < cfg.numSlots)
    (inside : a < cfg.pkts (objs.tensor r).size) :
    Open (launch cfg objs w r) (a * cfg.numUpdates) := by
  have regular := covered.regular fresh updates positive .nil
  exact regular.open_iff.mpr
    ⟨(covered.mem_launch fresh updates positive inside).mpr slotted,List.not_mem_nil⟩

/-- A packet sent before its slot has come to it is sent again when the slot does. -/
theorem Covered.not_ahead (slots : 0 < cfg.numSlots) (numUpdates : cfg.numUpdates < 2^32)
    (run : Reaches cfg objs w r s) (ahead : Open s (j * cfg.numUpdates))
    (head : Open s (j % cfg.numSlots * cfg.numUpdates)) (later : cfg.numSlots ≤ j)
    (inside : j < cfg.pkts (objs.tensor r).size) : False := by
  have divided : 1 ≤ j / cfg.numSlots := Nat.div_pos later slots
  have parts := Nat.mod_add_div' j cfg.numSlots
  have back : j % cfg.numSlots + (j / cfg.numSlots - 1) * cfg.numSlots = j - cfg.numSlots := by
    have whole := Nat.le_mul_of_pos_left cfg.numSlots divided
    rw [Nat.sub_mul,Nat.one_mul]
    omega
  have differs (m) (less : m < j / cfg.numSlots - 1) :
      j * cfg.numUpdates ≠ (j % cfg.numSlots + m * cfg.numSlots) * cfg.numUpdates := by
    intro equal
    have index := Nat.eq_of_mul_eq_mul_right updates equal
    have product := Nat.mul_lt_mul_of_pos_right less slots
    omega
  obtain ⟨t,reached,previous,_,_,still⟩ := covered.drive fresh updates positive
    (n := j / cfg.numSlots - 1) slots numUpdates run head ahead (by rw [back]; omega) differs
  have waits := still _ ahead differs
  rw [back] at previous
  have size := covered.size_fits fresh updates positive slots numUpdates (by omega)
  have bound := (Config.lt_pkts updates).mp inside
  have again : reply cfg (objs.tensor r).size ((j - cfg.numSlots) * cfg.numUpdates) =
      [j * cfg.numUpdates] := by
    rw [reply,Config.nextStart_mul,Nat.sub_add_cancel later,u32_of_lt size,u32_of_lt (by omega),
      if_neg (by omega)]
  obtain ⟨_,_,_,new,_⟩ := covered.answer_one fresh updates positive reached previous waits
    (fun equal => by
      have := Nat.eq_of_mul_eq_mul_right updates equal
      omega) again
  exact new ((covered.regular fresh updates positive reached).open_iff.mp waits).1

/-- If all packets are under way, the answer to any of them sends none. -/
theorem Covered.next_past_few (slots : 1 < cfg.numSlots)
    (several : 1 < cfg.pkts (objs.tensor r).size) (inside : k < cfg.pkts (objs.tensor r).size)
    (few : cfg.pkts (objs.tensor r).size ≤ cfg.numSlots) :
    reply cfg (objs.tensor r).size (k * cfg.numUpdates) ≠
      [Worker.nextStart cfg (k * cfg.numUpdates)] := by
  intro wrapped
  obtain ⟨c,small,apart⟩ : ∃ c ≤ 1, c ≠ k := by
    by_cases zero : k = 0
    · exact ⟨1,Nat.le_refl 1,by omega⟩
    · exact ⟨0,Nat.zero_le 1,fun same => zero same.symm⟩
  obtain ⟨t,reached,sent,_⟩ := covered.answer_one fresh updates positive .nil
    (covered.launch_open fresh updates positive (by omega) inside)
    (covered.launch_open fresh updates positive (a := c) (by omega) (by omega))
    (fun same => apart (Nat.eq_of_mul_eq_mul_right updates same)) wrapped
  have length := (covered.regular fresh updates positive reached).length_le
  have every : cfg.offsets (objs.tensor r).size ⊆ (launch cfg objs w r).sent := by
    intro o member
    obtain ⟨a,range,rfl⟩ := List.mem_map.mp member
    have here := List.mem_range.mp range
    exact (covered.mem_launch fresh updates positive here).mpr (by omega)
  have all := ((Config.offsets_distinct updates _).subperm every).length_le
  rw [sent,List.length_append,List.length_singleton] at length
  rw [Config.offsets_length] at all
  omega

/-- Where slots send several packets, the answer to the last packet of one sends none: what it
sent would belong to another slot, of which only the first packet has been sent. -/
theorem Covered.next_past_many (numUpdates : cfg.numUpdates < 2^32) (slots : 1 < cfg.numSlots)
    (inside : k < cfg.pkts (objs.tensor r).size)
    (last : cfg.pkts (objs.tensor r).size ≤ k + cfg.numSlots)
    (many : cfg.numSlots < cfg.pkts (objs.tensor r).size) :
    reply cfg (objs.tensor r).size (k * cfg.numUpdates) ≠
      [Worker.nextStart cfg (k * cfg.numUpdates)] := by
  intro wrapped
  have division := Nat.mod_add_div' k cfg.numSlots
  have below := Nat.mod_lt k (Nat.lt_trans Nat.zero_lt_one slots)
  have opened {a} (slotted : a < cfg.numSlots) : Open (launch cfg objs w r) (a * cfg.numUpdates) :=
    covered.launch_open fresh updates positive slotted (Nat.lt_trans slotted many)
  obtain ⟨c,small,apart⟩ : ∃ c ≤ 1, c ≠ k % cfg.numSlots := by
    by_cases zero : k % cfg.numSlots = 0
    · exact ⟨1,Nat.le_refl 1,by omega⟩
    · exact ⟨0,Nat.zero_le 1,fun same => zero same.symm⟩
  have aside := opened (a := c) (by omega)
  obtain ⟨t,reached,here,_,passed,kept⟩ := covered.drive fresh updates positive
    (n := k / cfg.numSlots) (by omega) numUpdates .nil (opened below) aside
    (by omega) fun m _ => off_slot updates (by omega) apart m
  have before := covered.regular fresh updates positive reached
  rw [division] at here
  obtain ⟨u,after,sent,new,next,still⟩ := covered.answer_one fresh updates positive reached here
    (kept _ aside fun m _ => off_slot updates (by omega) apart m)
    (by
      have differs := off_slot updates (a := c) (by omega) apart (k / cfg.numSlots)
      rwa [division] at differs) wrapped
  obtain ⟨j,range,same⟩ := List.mem_map.mp
    ((covered.regular fresh updates positive after).inside (by
      rw [sent]
      exact List.mem_append_right _ (List.mem_singleton_self _)))
  have within := List.mem_range.mp range
  rw [← same] at new next
  have parts := Nat.mod_add_div' j cfg.numSlots
  have rest := Nat.mod_lt j (Nat.lt_trans Nat.zero_lt_one slots)
  have other : j % cfg.numSlots ≠ k % cfg.numSlots := by
    intro mods
    have bound : j / cfg.numSlots ≤ k / cfg.numSlots := by
      have upper : j / cfg.numSlots * cfg.numSlots <
          (k / cfg.numSlots + 1) * cfg.numSlots := by
        rw [Nat.succ_mul]
        omega
      exact Nat.le_of_lt_succ (Nat.lt_of_mul_lt_mul_right upper)
    have old := passed _ bound
    rw [← mods,parts] at old
    exact new old
  have head := kept _ (opened rest) fun m _ => off_slot updates rest other m
  have later : cfg.numSlots ≤ j := by
    by_contra first
    rw [Nat.mod_eq_of_lt (by omega)] at head
    exact new (before.open_iff.mp head).1
  refine covered.not_ahead fresh updates positive (by omega) numUpdates after next
    (still _ head ?_) later within
  have differs := off_slot updates rest other (k / cfg.numSlots)
  rwa [division] at differs

/-- The answer to the last packet of a slot sends none. -/
theorem Covered.next_past (numUpdates : cfg.numUpdates < 2^32)
    (several : 1 < cfg.pkts (objs.tensor r).size) (slots : 1 < cfg.numSlots)
    (inside : k < cfg.pkts (objs.tensor r).size)
    (last : cfg.pkts (objs.tensor r).size ≤ k + cfg.numSlots) :
    u32 (objs.tensor r).size ≤ Worker.nextStart cfg (k * cfg.numUpdates) := by
  by_contra wraps
  have wrapped : reply cfg (objs.tensor r).size (k * cfg.numUpdates) =
      [Worker.nextStart cfg (k * cfg.numUpdates)] := if_neg wraps
  rcases Nat.lt_or_ge cfg.numSlots (cfg.pkts (objs.tensor r).size) with many | few
  · exact covered.next_past_many fresh updates positive numUpdates slots inside last many wrapped
  · exact covered.next_past_few fresh updates positive slots several inside few wrapped

end covered

/-- A worker sends every offset of the gradient once and releases its lock in every order of the
results, exactly when no 32-bit variable on the way wraps around. -/
theorem covered_iff (cfg : Config) (objs : Objects) (w : Worker) (r : TensorRef)
    (updates : 1 ≤ cfg.numUpdates) (numUpdates : cfg.numUpdates < 2^32)
    (slots : 1 ≤ cfg.numSlots) (numSlots : cfg.numSlots < 2^32)
    (positive : 1 ≤ (objs.tensor r).size) (fresh : w.received (u32 (r.key cfg)) = ∅) :
    Covered cfg objs w r ↔ cfg.Covers (objs.tensor r).size := by
  constructor
  · intro covered
    exact
      { offsets := covered.offsets_fit fresh updates positive
        size := covered.size_fits fresh updates positive slots numUpdates
        loop := covered.loop_stops fresh updates positive
        next := fun several slotted k inside last =>
          covered.next_past fresh updates positive numUpdates several slotted inside last }
  · intro covers
    exact Covers.covered updates slots covers numSlots fresh positive

/-- One job whose only layer has the given size, with 128 slots of 256 updates. -/
def slotted : Config := ⟨128,256,0,fun job layer => job * 256 + layer⟩

def layerOf (size : Nat) : Objects := ⟨fun _ => { size := size },fun _ => 2,fun _ => 1⟩

theorem covered_thousand_updates :
    Covered slotted (layerOf 1000) { id := 0, tor := 0 } ⟨0,0,0⟩ ↔ slotted.Covers 1000 :=
  covered_iff slotted (layerOf 1000) { id := 0, tor := 0 } ⟨0,0,0⟩ (by decide) (by decide)
    (by decide) (by decide) (by decide) rfl

/-- A size of `2^32` is cut to 0 in the packets, so no slot goes on after its first packet. -/
theorem cut_size_stops :
    ¬Covered slotted (layerOf (2^32)) { id := 0, tor := 0 } ⟨0,0,0⟩ := by
  intro covered
  have fits := covered.size_fits rfl (by decide) (by decide) (by decide) (by decide) (by decide)
  exact absurd fits (by decide)

end CloudSim.Exchange
