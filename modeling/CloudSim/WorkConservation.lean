import CloudSim.DeficitRoundRobin
import CloudSim.LinkSharing

/-! The jobs that `DeficitRoundRobin` reduces together with its primary one. -/
namespace CloudSim

/-- A search for the least cost among what is accepted, from a bound on. -/
theorem foldl_least {A : Type} (accepts : A → Prop) [DecidablePred accepts] (cost key : A → Nat)
    (xs : List A) (best : Nat × Nat) :
    let found := xs.foldl
      (fun best x => if accepts x ∧ cost x < best.1 then (cost x,key x) else best) best
    (found = best ∧ ∀ x ∈ xs, accepts x → best.1 ≤ cost x) ∨
      ∃ x ∈ xs, accepts x ∧ found = (cost x,key x) ∧ cost x < best.1 ∧
        ∀ y ∈ xs, accepts y → cost x ≤ cost y := by
  induction xs generalizing best with
  | nil => exact Or.inl ⟨rfl,by simp⟩
  | cons head rest ih =>
    dsimp only [List.foldl_cons] at ih ⊢
    by_cases better : accepts head ∧ cost head < best.1
    · rw [if_pos better]
      rcases ih (cost head,key head) with ⟨found,least⟩ | ⟨x,inside,accepted,found,less,least⟩
      · refine Or.inr ⟨head,List.mem_cons_self,better.1,found,better.2,fun y member also => ?_⟩
        rcases List.mem_cons.mp member with rfl | later
        · exact le_rfl
        · exact least y later also
      · refine Or.inr ⟨x,List.mem_cons_of_mem _ inside,accepted,found,less.trans better.2,?_⟩
        intro y member also
        rcases List.mem_cons.mp member with rfl | later
        · exact less.le
        · exact least y later also
    · rw [if_neg better]
      have skipped (also : accepts head) : best.1 ≤ cost head :=
        Nat.not_lt.mp fun less => better ⟨also,less⟩
      rcases ih best with ⟨found,least⟩ | ⟨x,inside,accepted,found,less,least⟩
      · refine Or.inl ⟨found,fun y member also => ?_⟩
        rcases List.mem_cons.mp member with rfl | later
        · exact skipped also
        · exact least y later also
      · refine Or.inr ⟨x,List.mem_cons_of_mem _ inside,accepted,found,less,fun y member also => ?_⟩
        rcases List.mem_cons.mp member with rfl | later
        · exact less.le.trans (skipped also)
        · exact least y later also

namespace DeficitRoundRobin

section involve
variable (topo : Topology) (work : Workload) (quantums : Table Nat Nat) (ready : List ReadyPqueue)
  (i : Nat)

/-- `wids_allocated` of the job in front of a queue. -/
def frontWids (pq : List (List Entry)) : List Nat :=
  (front pq).elim [] fun additional => work.widsAllocated additional.tensor.job

/-- `involved_jids` and `involved_wids` as the work conservation loop leaves them. -/
def involvement : Nat → List Nat → List Nat → List Nat × List Nat
  | 0,involvedJids,involvedWids => (involvedJids,involvedWids)
  | fuel + 1,involvedJids,involvedWids =>
    let selected := selectIdx topo work quantums ready i involvedJids involvedWids
    if selected = i then (involvedJids,involvedWids)
    else
      match ready[selected]? with
      | none => (involvedJids,involvedWids)
      | some (jobId,pq) =>
        involvement fuel (involvedJids ++ [jobId]) (involvedWids ++ frontWids work pq)

theorem involve_eq (fuel : Nat) (involvedJids involvedWids : List Nat) :
    involve topo work quantums ready i fuel involvedJids involvedWids =
      (involvement topo work quantums ready i fuel involvedJids involvedWids).1 := by
  induction fuel generalizing involvedJids involvedWids with
  | zero => rfl
  | succ fuel ih =>
    simp only [involve,involvement]
    split
    · rfl
    · cases ready[selectIdx topo work quantums ready i involvedJids involvedWids]? with
      | none => rfl
      | some entry => exact ih _ _

/-- The job of a queue that is not empty can be added to the involved ones. -/
def Joins (involvedJids involvedWids : List Nat) (entry : ReadyPqueue) : Prop :=
  ∃ additional ∈ front entry.2, entry.1 ∉ involvedJids ∧
    topo.accommodate involvedWids (work.widsAllocated additional.tensor.job) = true

instance (involvedJids involvedWids : List Nat) (entry : ReadyPqueue) :
    Decidable (Joins topo work involvedJids involvedWids entry) :=
  inferInstanceAs (Decidable (∃ _ ∈ _, _))

/-- No queue from an index on can be added. -/
def FullFrom (first : Nat) (involvedJids involvedWids : List Nat) : Prop :=
  ∀ j entry, first ≤ j → ready[j]? = some entry → ¬Joins topo work involvedJids involvedWids entry

/-- Jobs from index `i` on that can be added one after another. -/
inductive Selection : List Nat → List Nat → List Nat → List Nat → Prop where
  | done : Selection jids wids jids wids
  | join : i ≤ j → ready[j]? = some entry → Joins topo work jids wids entry →
    Selection (jids ++ [entry.1]) (wids ++ frontWids work entry.2) jids' wids' →
    Selection jids wids jids' wids'

end involve

section select
variable {topo : Topology} {work : Workload} {quantums : Table Nat Nat} {ready : List ReadyPqueue}
  {i : Nat} {jids wids : List Nat}

theorem involvement_stop (stops : selectIdx topo work quantums ready i jids wids = i)
    (fuel : Nat) : involvement topo work quantums ready i fuel jids wids = (jids,wids) := by
  cases fuel with
  | zero => rfl
  | succ fuel => exact if_pos stops

theorem involvement_join {entry : ReadyPqueue}
    (found : selectIdx topo work quantums ready i jids wids = j) (apart : j ≠ i)
    (at' : ready[j]? = some entry) (fuel : Nat) :
    involvement topo work quantums ready i (fuel + 1) jids wids =
      involvement topo work quantums ready i fuel (jids ++ [entry.1])
        (wids ++ frontWids work entry.2) := by
  subst found
  rw [involvement,if_neg apart,at']

theorem mem_drop_zipIdx {entry : ReadyPqueue} :
    (entry,j) ∈ ready.zipIdx.drop i ↔ i ≤ j ∧ ready[j]? = some entry := by
  rw [List.mem_iff_getElem?]
  constructor
  · rintro ⟨k,at'⟩
    rw [List.getElem?_drop,List.getElem?_zipIdx] at at'
    obtain ⟨e,found,same⟩ := Option.map_eq_some_iff.mp at'
    obtain ⟨rfl,rfl⟩ := Prod.mk.inj same
    exact ⟨by omega,by simpa using found⟩
  · rintro ⟨le,found⟩
    refine ⟨j - i,?_⟩
    rw [List.getElem?_drop,List.getElem?_zipIdx,Nat.add_sub_cancel' le,found]
    simp

variable (topo work ready i jids wids) in
/-- The search ends at `i` if no queue can be added, and else at one of the least quantum. -/
theorem selectIdx_chosen (small : ∀ j, quantums.get j < 2^32 - 1) :
    (selectIdx topo work quantums ready i jids wids = i ∧ FullFrom topo work ready i jids wids) ∨
      ∃ j entry, selectIdx topo work quantums ready i jids wids = j ∧ i ≤ j ∧
        ready[j]? = some entry ∧ Joins topo work jids wids entry ∧
        ∀ k other, i ≤ k → ready[k]? = some other → Joins topo work jids wids other →
          quantums.get entry.1 ≤ quantums.get other.1 := by
  have search : selectIdx topo work quantums ready i jids wids =
      ((ready.zipIdx.drop i).foldl (fun (best : Nat × Nat) x =>
        if Joins topo work jids wids x.1 ∧ quantums.get x.1.1 < best.1 then
          (quantums.get x.1.1,x.2) else best) (2^32 - 1,i)).2 := by
    unfold selectIdx
    congr 2
    funext best x
    cases same : front x.1.2 with
    | none => simp [Joins,same]
    | some additional => simp [Joins,same,and_assoc]
  rw [search]
  rcases foldl_least (fun x : ReadyPqueue × Nat => Joins topo work jids wids x.1)
    (fun x => quantums.get x.1.1) Prod.snd (ready.zipIdx.drop i) (2^32 - 1,i) with
    ⟨found,none⟩ | ⟨⟨entry,j⟩,member,joins,found,_,least⟩
  · refine Or.inl ⟨congrArg Prod.snd found,fun j entry le at' joins => ?_⟩
    exact absurd (small entry.1) (Nat.not_lt.mpr (none _ (mem_drop_zipIdx.mpr ⟨le,at'⟩) joins))
  · obtain ⟨le,at'⟩ := mem_drop_zipIdx.mp member
    refine Or.inr ⟨j,entry,congrArg Prod.snd found,le,at',joins,fun k other below there also => ?_⟩
    exact least _ (mem_drop_zipIdx.mpr ⟨below,there⟩) also

theorem Selection.append (selection : Selection topo work ready i jids wids jids' wids') :
    ∃ rest, jids' = jids ++ rest := by
  induction selection with
  | done => exact ⟨[],(List.append_nil _).symm⟩
  | @join j entry jids wids jids' wids' le at' joins later ih =>
    obtain ⟨rest,same⟩ := ih
    exact ⟨entry.1 :: rest,by rw [same,List.append_assoc]; rfl⟩

theorem Selection.distinct (selection : Selection topo work ready i jids wids jids' wids')
    (distinct : jids.Nodup) (listed : jids ⊆ ready.map Prod.fst) :
    jids'.Nodup ∧ jids' ⊆ ready.map Prod.fst := by
  induction selection with
  | done => exact ⟨distinct,listed⟩
  | @join j entry jids wids jids' wids' le at' joins later ih =>
    obtain ⟨_,_,new,_⟩ := joins
    refine ih (List.nodup_append.mpr ⟨distinct,List.nodup_singleton _,?_⟩) ?_
    · intro a old b here same
      rw [List.mem_singleton.mp here] at same
      exact new (same ▸ old)
    · refine List.append_subset.mpr ⟨listed,List.cons_subset.mpr ⟨?_,List.nil_subset _⟩⟩
      exact List.mem_map_of_mem (List.mem_of_getElem? at')

def others (ready : List ReadyPqueue) (jids : List Nat) : List Nat :=
  (ready.map Prod.fst).filter fun jid => jid ∉ jids

theorem others_less {j : Nat} {entry : ReadyPqueue} (at' : ready[j]? = some entry)
    (new : entry.1 ∉ jids) :
    (others ready (jids ++ [entry.1])).length < (others ready jids).length := by
  have fewer : others ready (jids ++ [entry.1]) =
      (others ready jids).filter fun jid => jid ≠ entry.1 := by
    rw [others,others,List.filter_filter]
    refine List.filter_congr fun jid _ => ?_
    rw [← Bool.decide_and,decide_eq_decide,List.mem_append,not_or,List.mem_singleton,and_comm]
  rw [fewer]
  refine List.length_filter_lt_length_iff_exists.mpr ⟨entry.1,?_,by simp⟩
  exact List.mem_filter.mpr ⟨List.mem_map_of_mem (List.mem_of_getElem? at'),by simpa using new⟩

section primary
variable {entry : ReadyPqueue} (primary : ready[i]? = some entry) (involved : entry.1 ∈ jids)
include primary involved

theorem Joins.ne {other : ReadyPqueue} (joins : Joins topo work jids wids other)
    (at' : ready[j]? = some other) : j ≠ i := by
  rintro rfl
  obtain rfl := Option.some.inj (primary.symm.trans at')
  obtain ⟨_,_,new,_⟩ := joins
  exact new involved

theorem involvement_full (small : ∀ j, quantums.get j < 2^32 - 1) {fuel : Nat}
    (enough : (others ready jids).length < fuel) :
    let found := involvement topo work quantums ready i fuel jids wids
    Selection topo work ready i jids wids found.1 found.2 ∧
      selectIdx topo work quantums ready i found.1 found.2 = i ∧
      FullFrom topo work ready i found.1 found.2 := by
  induction fuel generalizing jids wids with
  | zero => exact absurd enough (Nat.not_lt_zero _)
  | succ fuel ih =>
    rcases selectIdx_chosen topo work ready i jids wids small with
      ⟨ends,full⟩ | ⟨j,other,found,le,at',joins,_⟩
    · rw [involvement_stop ends]
      exact ⟨.done,ends,full⟩
    · have apart := joins.ne primary involved at'
      obtain ⟨_,_,new,_⟩ := id joins
      have less := others_less at' new
      have next := @ih (jids ++ [other.1]) (wids ++ frontWids work other.2)
        (List.mem_append_left _ involved) (by omega)
      rw [involvement_join found apart at']
      exact ⟨.join le at' joins next.1,next.2⟩

theorem involvement_follows {first : Nat} {chain before : List Nat}
    (once : (ready.map Prod.fst).Nodup) (small : chain.length < 2^32 - 1)
    (order : ∀ jid, quantums.get jid = chain.idxOf jid)
    (selection : Selection topo work ready i jids wids jids' wids')
    (started : jids = first :: before) (ends : jids' = first :: chain)
    (full : FullFrom topo work ready i jids' wids') {fuel : Nat}
    (enough : (others ready jids).length < fuel) :
    involvement topo work quantums ready i fuel jids wids = (jids',wids') := by
  have bounded (jid : Nat) : quantums.get jid < 2^32 - 1 :=
    order jid ▸ Nat.lt_of_le_of_lt List.idxOf_le_length small
  induction selection generalizing before fuel with
  | done =>
    rcases selectIdx_chosen topo work ready i _ _ bounded with
      ⟨stops,_⟩ | ⟨j,other,_,le,at',joins,_⟩
    · exact involvement_stop stops fuel
    · exact absurd joins (full j other le at')
  | @join j other jids wids jids' wids' le at' joins later ih =>
    obtain ⟨fuel,rfl⟩ := Nat.exists_eq_succ_of_ne_zero (Nat.ne_zero_of_lt enough)
    obtain ⟨_,_,new,_⟩ := id joins
    obtain ⟨rest,same⟩ := later.append
    have split : chain = before ++ other.1 :: rest := by
      rw [ends,started] at same
      simpa using same
    have absent (jid : Nat) (out : jid ∉ jids) : jid ∉ before := fun inside =>
      out (started ▸ List.mem_cons_of_mem _ inside)
    -- Before `other` the chain has involved jobs only, so its quantum is the least that is left.
    have first : quantums.get other.1 = before.length := by
      rw [order,split,List.idxOf_append_of_notMem (absent _ new),List.idxOf_cons_self,Nat.add_zero]
    have least (jid : Nat) (out : jid ∉ jids) (below : quantums.get jid ≤ before.length) :
        jid = other.1 := by
      by_contra apart
      rw [order,split,List.idxOf_append_of_notMem (absent _ out),
        List.idxOf_cons_ne _ (Ne.symm apart)] at below
      omega
    rcases selectIdx_chosen topo work ready i jids wids bounded with
      ⟨_,none⟩ | ⟨k,chosen,found,_,there,also,low⟩
    · exact absurd joins (none j other le at')
    · obtain ⟨_,_,out,_⟩ := id also
      have named := least chosen.1 out ((low j other le at' joins).trans first.le)
      have both : (ready.map Prod.fst)[k]? = (ready.map Prod.fst)[j]? := by
        rw [List.getElem?_map,List.getElem?_map,there,at',Option.map_some,Option.map_some,named]
      have inside : j < (ready.map Prod.fst).length := by
        rw [List.length_map]
        exact (List.getElem?_eq_some_iff.mp at').1
      obtain rfl : j = k := (List.getElem?_inj inside once).mp both.symm
      have less := others_less at' new
      rw [involvement_join found (joins.ne primary involved at') at']
      exact ih (List.mem_append_left _ involved) (by rw [started]; rfl) ends full (by omega)

end primary

end select

/-- For all quantums the loop ends with a set of jobs that no other job can join, exactly if no
selection that is complete from the primary index on leaves room for an earlier queue. -/
theorem work_conserving_iff (topo : Topology) (work : Workload) (ready : List ReadyPqueue) (i : Nat)
    (jid : Nat) (pq : List (List Entry)) (primary : ready[i]? = some (jid,pq))
    (once : (ready.map Prod.fst).Nodup) (indexed : ready.length < 2^32) :
    (∀ quantums : Table Nat Nat, (∀ j, quantums.get j < 2^32 - 1) →
      let found := involvement topo work quantums ready i ready.length [jid] (frontWids work pq)
      selectIdx topo work quantums ready i found.1 found.2 = i ∧
        FullFrom topo work ready 0 found.1 found.2) ↔
    ∀ jids wids, Selection topo work ready i [jid] (frontWids work pq) jids wids →
      FullFrom topo work ready i jids wids → FullFrom topo work ready 0 jids wids := by
  have listed : [jid] ⊆ ready.map Prod.fst :=
    List.cons_subset.mpr ⟨List.mem_map_of_mem (List.mem_of_getElem? primary),List.nil_subset _⟩
  have enough : (others ready [jid]).length < ready.length := by
    have mapped : (ready.map Prod.fst).length = ready.length := List.length_map _
    rw [← mapped]
    refine List.length_filter_lt_length_iff_exists.mpr ⟨jid,listed List.mem_cons_self,by simp⟩
  constructor
  · intro conserving jids wids selection full
    obtain ⟨chain,rfl⟩ := selection.append
    have distinct := selection.distinct (List.nodup_singleton _) listed
    have short : (jid :: chain).length ≤ ready.length := by
      simpa using (distinct.1.subperm distinct.2).length_le
    rw [List.length_cons] at short
    have small : chain.length < 2^32 - 1 := by omega
    let quantums : Table Nat Nat := fun jid => some (chain.idxOf jid)
    have order (jid : Nat) : quantums.get jid = chain.idxOf jid := rfl
    have follows := involvement_follows primary List.mem_cons_self once small order selection
      rfl rfl full enough
    have conserved := (conserving quantums fun j => Nat.lt_of_le_of_lt List.idxOf_le_length small).2
    rwa [follows] at conserved
  · intro complete quantums small
    obtain ⟨selection,ends,full⟩ := involvement_full primary List.mem_cons_self small enough
    exact ⟨ends,complete _ _ selection full⟩

/-- Two jobs in two racks of two workers. -/
def rackPair : Workload where
  widsAllocated j := if j = 0 then [0,1] else [2,3]
  model _ := [1]
  nIter _ := 1
  widsDistinct j := by split <;> decide
  sizesFit := Workload.unitTensor_fits
  itersFit := Workload.onePass_fits

def rackPqueues : List ReadyPqueue := [(0,[[⟨⟨0,0,0⟩,0⟩]]),(1,[[⟨⟨2,1,0⟩,0⟩]])]

/-- From index 0 the search passes all queues. -/
theorem work_conserving_first :
    let found := involvement (.hierarchical HierarchicalTopology.threePorts) rackPair default
      rackPqueues 0 rackPqueues.length [0] (frontWids rackPair [[⟨⟨0,0,0⟩,0⟩]])
    selectIdx (.hierarchical HierarchicalTopology.threePorts) rackPair default rackPqueues 0
        found.1 found.2 = 0 ∧
      FullFrom (.hierarchical HierarchicalTopology.threePorts) rackPair rackPqueues 0
        found.1 found.2 :=
  (work_conserving_iff _ rackPair rackPqueues 0 0 _ rfl (by decide) (by decide)).mpr
    (fun _ _ _ full => full) default fun j => by
      rw [Table.get_default]
      decide

/-- From index 1 it misses the queue at index 0. -/
theorem earlier_queue_left_out :
    involvement (.hierarchical HierarchicalTopology.threePorts) rackPair default rackPqueues 1
        rackPqueues.length [1] (frontWids rackPair [[⟨⟨2,1,0⟩,0⟩]]) = ([1],[2,3]) ∧
      ¬FullFrom (.hierarchical HierarchicalTopology.threePorts) rackPair rackPqueues 0
        [1] [2,3] := by
  refine ⟨rfl,fun full => full 0 (0,[[⟨⟨0,0,0⟩,0⟩]]) le_rfl rfl ?_⟩
  decide

end DeficitRoundRobin
end CloudSim
