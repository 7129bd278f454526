import CloudSim.Traffic

/-! The packets under way, hop by hop: at most one packet of a slot is on a hop, and it is
the next one that the end of the hop has not seen. -/
namespace CloudSim

def Traffic.Proper (tr : Traffic) (p : Place) : Prop :=
  p.layer ∈ tr.active ∧ p.slot < tr.cfg.numSlots ∧ p.link.Valid (tr.tree p.layer.1)

def Traffic.Sends (tr : Traffic) (p : Place) : Prop := tr.Proper p ∧ ∃ w, p.link = .up w

def Traffic.Receives (tr : Traffic) (p : Place) : Prop := tr.Proper p ∧ ∃ w, p.link = .down w

/-- `low` and `high` count the packets of each place that have left it and entered it.
With `exact` no packet was dropped. -/
structure Links (tr : Traffic) (exact : Prop) (begun : TensorRef → Nat) (low high : Place → Nat)
    (inflight : List Flight) : Prop where
  distinct : (inflight.map Flight.place).Nodup
  proper : ∀ fl ∈ inflight, tr.Proper fl.place
  under : ∀ fl ∈ inflight, low fl.place < high fl.place
  stamped : ∀ fl ∈ inflight, ∃ owner ∈ (tr.tree fl.place.layer.1).workers,
    0 < begun (fl.place.layer.ref owner) ∧ fl = tr.flight fl.place (low fl.place) owner
  full : exact → ∀ p, tr.Proper p → low p < high p → ∃ fl ∈ inflight, fl.place = p

namespace Links
variable {tr : Traffic} {exact : Prop} {begun : TensorRef → Nat} {low high : Place → Nat}
  {inflight : List Flight}

theorem nil : Links tr exact begun low low [] :=
  ⟨List.nodup_nil,(fun _ member => by cases member),(fun _ member => by cases member),
    (fun _ member => by cases member),fun _ p _ pending => absurd pending (Nat.lt_irrefl _)⟩

theorem congr (links : Links tr exact begun low high inflight)
    (lows : ∀ p, tr.Proper p → low' p = low p) (highs : ∀ p, tr.Proper p → high' p = high p) :
    Links tr exact begun low' high' inflight := by
  refine ⟨links.distinct,links.proper,fun fl member => ?_,fun fl member => ?_,
    fun tight p proper => ?_⟩
  · rw [lows _ (links.proper fl member),highs _ (links.proper fl member)]
    exact links.under fl member
  · rw [lows _ (links.proper fl member)]
    exact links.stamped fl member
  · rw [lows p proper,highs p proper]
    exact links.full tight p proper

theorem more_begun (links : Links tr exact begun low high inflight)
    (more : ∀ r, begun r ≤ begun' r) : Links tr exact begun' low high inflight := by
  refine { links with stamped := fun fl member => ?_ }
  obtain ⟨owner,worker,launched,same⟩ := links.stamped fl member
  exact ⟨owner,worker,Nat.lt_of_lt_of_le launched (more _),same⟩

theorem place_ne (links : Links tr exact begun low high inflight) (member : fl ∈ inflight)
    (also : other ∈ inflight.erase fl) : other.place ≠ fl.place := by
  have split := (List.perm_cons_erase member).map Flight.place
  have distinct := split.nodup links.distinct
  rw [List.map_cons,List.nodup_cons] at distinct
  intro same
  exact distinct.1 (List.mem_map.mpr ⟨other,also,same⟩)

theorem erase_distinct (links : Links tr exact begun low high inflight) (fl : Flight) :
    ((inflight.erase fl).map Flight.place).Nodup :=
  ((List.erase_sublist (a := fl)).map Flight.place).nodup links.distinct

section erase
variable (links : Links tr exact begun low high inflight) (member : fl ∈ inflight)
include links

theorem drop (loose : ¬exact) : Links tr exact begun low high (inflight.erase fl) :=
  ⟨links.erase_distinct fl,fun g also => links.proper g (List.mem_of_mem_erase also),
    fun g also => links.under g (List.mem_of_mem_erase also),
    fun g also => links.stamped g (List.mem_of_mem_erase also),fun tight => absurd tight loose⟩

include member

theorem take (window : high fl.place ≤ low fl.place + 1) :
    Links tr exact begun (Function.update low fl.place (low fl.place + 1)) high
      (inflight.erase fl) := by
  refine ⟨links.erase_distinct fl,fun g also => links.proper g (List.mem_of_mem_erase also),
    fun g also => ?_,fun g also => ?_,fun tight p proper pending => ?_⟩
  · rw [Function.update_of_ne (links.place_ne member also)]
    exact links.under g (List.mem_of_mem_erase also)
  · rw [Function.update_of_ne (links.place_ne member also)]
    exact links.stamped g (List.mem_of_mem_erase also)
  · rcases eq_or_ne p fl.place with rfl | elsewhere
    · rw [Function.update_self] at pending; omega
    · rw [Function.update_of_ne elsewhere] at pending
      obtain ⟨g,found,rfl⟩ := links.full tight p proper pending
      refine ⟨g,(List.mem_erase_of_ne ?_).mpr found,rfl⟩
      rintro rfl
      exact elsewhere rfl

end erase

theorem send (links : Links tr exact begun low high inflight) (places : List Place)
    (distinct : places.Nodup) (proper : ∀ p ∈ places, tr.Proper p)
    (empty : ∀ p ∈ places, low p = high p) (raised : ∀ p ∈ places, high' p = high p + 1)
    (others : ∀ p, tr.Proper p → p ∉ places → high' p = high p) {owner : Nat}
    (worker : ∀ p ∈ places, owner ∈ (tr.tree p.layer.1).workers ∧ 0 < begun (p.layer.ref owner)) :
    Links tr exact begun low high'
      (inflight ++ places.map fun p => tr.flight p (low p) owner) := by
  have fresh (fl : Flight) (member : fl ∈ inflight) : fl.place ∉ places := by
    intro inside
    exact absurd (empty _ inside) (links.under fl member).ne
  have named : (places.map fun p => tr.flight p (low p) owner).map Flight.place = places := by
    rw [List.map_map]
    exact (List.map_congr_left fun p _ => tr.flight_place p (low p) owner).trans (List.map_id _)
  refine ⟨?_,fun fl member => ?_,fun fl member => ?_,fun fl member => ?_,
    fun tight p proper pending => ?_⟩
  · rw [List.map_append,named]
    refine List.nodup_append.mpr ⟨links.distinct,distinct,fun a old b new same => ?_⟩
    obtain ⟨fl,member,rfl⟩ := List.mem_map.mp old
    exact fresh fl member (same ▸ new)
  · rcases List.mem_append.mp member with old | new
    · exact links.proper fl old
    · obtain ⟨p,inside,rfl⟩ := List.mem_map.mp new
      rw [tr.flight_place]
      exact proper p inside
  · rcases List.mem_append.mp member with old | new
    · rw [others _ (links.proper fl old) (fresh fl old)]
      exact links.under fl old
    · obtain ⟨p,inside,rfl⟩ := List.mem_map.mp new
      rw [tr.flight_place,raised p inside,empty p inside]
      exact Nat.lt_succ_self _
  · rcases List.mem_append.mp member with old | new
    · exact links.stamped fl old
    · obtain ⟨p,inside,rfl⟩ := List.mem_map.mp new
      rw [tr.flight_place]
      exact ⟨owner,(worker p inside).1,(worker p inside).2,rfl⟩
  · by_cases inside : p ∈ places
    · exact ⟨_,List.mem_append_right _ (List.mem_map_of_mem inside),tr.flight_place p _ _⟩
    · rw [others p proper inside] at pending
      obtain ⟨fl,found,same⟩ := links.full tight p proper pending
      exact ⟨fl,List.mem_append_left _ found,same⟩

end Links
end CloudSim
