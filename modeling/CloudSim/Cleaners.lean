import CloudSim.Tree

/-! Which worker cleans which switch of a placed job, in both topologies. -/
namespace CloudSim

/-- `CustomTopology`: one ToR above all workers. -/
structure CustomNetwork where
  tor : Switch
  worker : Nat → Worker

namespace CustomTopology

def initNetwork : CustomNetwork where
  tor := { id := 0, layer := 0 }
  worker k := { id := k, tor := 0 }

structure Wiring where
  net : CustomNetwork
  cleanerWorkerSet : Bool

/-- One round of the loop over `run_config`. -/
def wireWorker (jobId : Nat) (s : Wiring) (wid : Nat) : Wiring :=
  let worker := s.net.worker wid
  let net := if s.cleanerWorkerSet then s.net
    else { s.net with worker := fun k =>
      if k = wid then { worker with cleanToRForJob := worker.cleanToRForJob.put jobId true }
      else s.net.worker k }
  { net := { net with tor := { net.tor with
      numUpdatesForJob := net.tor.numUpdatesForJob.put jobId
        (u32 (net.tor.numUpdatesForJob.get jobId + 1))
      downwardIdsForJob := net.tor.downwardIdsForJob.put jobId
        (HierarchicalTopology.insertId (net.tor.downwardIdsForJob.get jobId) wid) } }
    cleanerWorkerSet := true }

/-- `set_switch_num_updates`. The local `cleaner_worker_set` is not initialised, so it starts with
whatever value it happens to hold. -/
def setSwitchNumUpdates (jobId : Nat) (wids : List Nat) (cleanerWorkerSet : Bool)
    (net : CustomNetwork) : CustomNetwork :=
  let net := (wids.foldl (wireWorker jobId) ⟨net,cleanerWorkerSet⟩).net
  { net with tor := { net.tor with topLevelForJob := net.tor.topLevelForJob.put jobId true } }

theorem wireWorkers_set (jobId : Nat) (wids : List Nat) (net : CustomNetwork) :
    (wids.foldl (wireWorker jobId) ⟨net,true⟩).net.worker = net.worker := by
  induction wids generalizing net with
  | nil => rfl
  | cons wid rest ih => rw [List.foldl_cons]; exact ih _

theorem setSwitchNumUpdates_cleans {net : CustomNetwork} {jobId : Nat}
    (unplaced : ∀ w, (net.worker w).cleanToRForJob.get jobId = false) (first : Nat)
    (rest : List Nat) (cleanerWorkerSet : Bool) (w : Nat) :
    ((setSwitchNumUpdates jobId (first :: rest) cleanerWorkerSet net).worker w).cleanToRForJob.get
      jobId = (!cleanerWorkerSet && decide (w = first)) := by
  change (((first :: rest).foldl (wireWorker jobId) ⟨net,cleanerWorkerSet⟩).net.worker
    w).cleanToRForJob.get jobId = _
  rw [List.foldl_cons]
  cases cleanerWorkerSet with
  | true =>
    rw [show wireWorker jobId ⟨net,true⟩ first = ⟨_,true⟩ from rfl,wireWorkers_set]
    exact unplaced w
  | false =>
    rw [show wireWorker jobId ⟨net,false⟩ first = ⟨_,true⟩ from rfl,wireWorkers_set]
    by_cases same : w = first
    · simp [same]
    · simpa [same] using unplaced w

end CustomTopology

/-- Every ToR above the workers has one cleaner among them, no other worker cleans, and if there
are several ToRs then one of them has the switch above cleaned. -/
structure OneCleaner (wids : List Nat) (torOf : Nat → Nat) (cleansTor cleansUpper : Nat → Bool) :
    Prop where
  lower : ∀ w ∈ wids, ∃! v, v ∈ wids ∧ torOf v = torOf w ∧ cleansTor v = true
  others : ∀ w, w ∉ wids → cleansTor w = false
  upper : (∃ v ∈ wids, ∃ w ∈ wids, torOf v ≠ torOf w) →
    ∃! t, (∃ w ∈ wids, torOf w = t) ∧ cleansUpper t = true

namespace HierarchicalTopology

theorem setSwitchNumUpdates_worker (topo : HierarchicalTopology) (jobId : Nat)
    (wids torOrder : List Nat) (net : Network) :
    (topo.setSwitchNumUpdates jobId wids torOrder net).worker =
      (topo.wireWorkers jobId wids net).net.worker := by
  have kept (update : Network → Nat → Network)
      (keeps : ∀ net t, (update net t).worker = net.worker) (net : Network) :
      (torOrder.foldl update net).worker = net.worker := by
    induction torOrder generalizing net with
    | nil => rfl
    | cons t rest ih => rw [List.foldl_cons,ih,keeps]
  unfold setSwitchNumUpdates
  dsimp only
  split
  · exact kept (wireTor jobId (torOrder.headD 0)) (fun _ _ => rfl) _
  · exact kept (wireTop jobId) (fun _ _ => rfl) _

theorem one_cleaner (topo : HierarchicalTopology) (tree : Tree)
    (torOf : tree.torOf = topo.hostToRSwitch) {jobId : Nat} {net : Network}
    (built : Built topo net) (unplaced : Unplaced jobId net) (small : tree.workers.length < 2^32) :
    OneCleaner tree.workers topo.hostToRSwitch
      (fun w => ((topo.setSwitchNumUpdates jobId tree.workers tree.tors net).worker
        w).cleanToRForJob.get jobId)
      (fun t => ((topo.setSwitchNumUpdates jobId tree.workers tree.tors net).tor
        t).cleanUpperLevelSwitchForJob.get jobId) := by
  have wired := topo.setSwitchNumUpdates_wired tree torOf built unplaced small
  rw [← torOf]
  constructor
  case lower =>
    intro w member
    have above := tree.torOf_mem member
    obtain ⟨inside,same⟩ := tree.mem_under.mp (tree.cleaner_mem above)
    refine ⟨tree.cleaner (tree.torOf w),⟨inside,same,?_⟩,?_⟩
    · rw [wired.workerCleans _ inside,same]
      exact decide_eq_true rfl
    · rintro v ⟨worker,below,cleans⟩
      rw [wired.workerCleans v worker,below] at cleans
      exact of_decide_eq_true cleans
  case others =>
    intro w absent
    rw [setSwitchNumUpdates_worker,Bool.eq_false_iff]
    intro cleans
    have wires := wireWorkers_wires topo built unplaced tree.workers tree.workersDistinct small
    have head := (wires.workerCleans w).mp cleans
    exact absent (List.mem_of_mem_filter (List.mem_of_mem_head? head))
  case upper =>
    rintro ⟨v,member,w,also,apart⟩
    have tall : tree.flat = false := by
      rw [Bool.eq_false_iff]
      intro flat
      have few : tree.tors.length ≤ 1 := by simpa [Tree.flat] using flat
      obtain ⟨i,inside,first⟩ := List.getElem_of_mem (tree.torOf_mem member)
      obtain ⟨j,within,second⟩ := List.getElem_of_mem (tree.torOf_mem also)
      obtain rfl : i = j := by omega
      exact apart (first.symm.trans second)
    have leads := tree.upperCleaner_mem tall
    refine ⟨tree.upperCleaner,⟨(tree.involved _).mp leads,?_⟩,?_⟩
    · rw [wired.torCleans _ leads,tall]
      simp
    · rintro t ⟨inside,cleans⟩
      rw [wired.torCleans t ((tree.involved t).mpr inside),tall] at cleans
      simpa using cleans

end HierarchicalTopology

/-- Placement names one cleaner for every switch of a job, except that in `CustomTopology` it does
so exactly if the uninitialised flag starts out as false. -/
theorem every_switch_has_one_cleaner (jobId : Nat) (wids : List Nat) (nonempty : wids ≠ [])
    (distinct : wids.Nodup) :
    (∀ (topo : HierarchicalTopology) (torOrder : List Nat) (net : Network),
      (∀ w ∈ wids, w < topo.ports * (topo.ports - 1)) → torOrder.Nodup →
      (∀ t, t ∈ torOrder ↔ ∃ w ∈ wids, topo.hostToRSwitch w = t) →
      HierarchicalTopology.Built topo net → HierarchicalTopology.Unplaced jobId net →
      OneCleaner wids topo.hostToRSwitch
        (fun w => ((topo.setSwitchNumUpdates jobId wids torOrder net).worker
          w).cleanToRForJob.get jobId)
        (fun t => ((topo.setSwitchNumUpdates jobId wids torOrder net).tor
          t).cleanUpperLevelSwitchForJob.get jobId)) ∧
    ∀ (cleanerWorkerSet : Bool) (net : CustomNetwork),
      (∀ w, (net.worker w).cleanToRForJob.get jobId = false) →
      (OneCleaner wids (fun _ => 0)
        (fun w => ((CustomTopology.setSwitchNumUpdates jobId wids cleanerWorkerSet net).worker
          w).cleanToRForJob.get jobId)
        (fun _ => (CustomTopology.setSwitchNumUpdates jobId wids cleanerWorkerSet
          net).tor.cleanUpperLevelSwitchForJob.get jobId) ↔ cleanerWorkerSet = false) := by
  constructor
  · intro topo torOrder net existing torsDistinct involved built unplaced
    have small : wids.length < 2^32 :=
      (topo.wids_length_lt distinct existing).trans (by decide)
    exact topo.one_cleaner ⟨wids,torOrder,topo.hostToRSwitch,distinct,torsDistinct,involved⟩ rfl
      built unplaced small
  · intro cleanerWorkerSet net unplaced
    obtain ⟨first,rest,rfl⟩ := List.exists_cons_of_ne_nil nonempty
    simp only [CustomTopology.setSwitchNumUpdates_cleans unplaced]
    constructor
    · intro law
      obtain ⟨v,⟨_,_,cleans⟩,_⟩ := law.lower first List.mem_cons_self
      simpa using ((Bool.and_eq_true ..).mp cleans).1
    · rintro rfl
      refine ⟨fun w _ => ⟨first,⟨List.mem_cons_self,rfl,by simp⟩,fun v both => ?_⟩,
        fun w absent => ?_,fun ⟨_,_,_,_,apart⟩ => absurd rfl apart⟩
      · simpa using both.2.2
      · have other : w ≠ first := fun same => absent (same ▸ List.mem_cons_self)
        simp [other]

/-- Workers 2, 0 and 5 of the network with three ports, below ToRs 1, 0 and 2. -/
theorem every_switch_has_one_cleaner_three_workers :
    OneCleaner [2,0,5] (· / 2)
      (fun w => ((HierarchicalTopology.setSwitchNumUpdates ⟨3,by decide,by decide⟩ 0 [2,0,5] [1,0,2]
        (HierarchicalTopology.initNetwork ⟨3,by decide,by decide⟩)).worker w).cleanToRForJob.get 0)
      (fun t => ((HierarchicalTopology.setSwitchNumUpdates ⟨3,by decide,by decide⟩ 0 [2,0,5] [1,0,2]
        (HierarchicalTopology.initNetwork ⟨3,by decide,by decide⟩)).tor
          t).cleanUpperLevelSwitchForJob.get 0) :=
  (every_switch_has_one_cleaner 0 [2,0,5] (by decide) (by decide)).1 ⟨3,by decide,by decide⟩
    [1,0,2] (HierarchicalTopology.initNetwork ⟨3,by decide,by decide⟩) (by decide) (by decide)
    (fun t => by
      simp only [HierarchicalTopology.hostToRSwitch,List.mem_cons,List.not_mem_nil,or_false,
        exists_eq_or_imp,exists_eq_left]
      omega)
    (HierarchicalTopology.initNetwork_built _) (HierarchicalTopology.initNetwork_unplaced _ 0)

/-- A flag that happens to start as true leaves the only switch without a cleaner. -/
theorem custom_switch_without_cleaner :
    ¬OneCleaner [0,1] (fun _ => 0)
      (fun w => ((CustomTopology.setSwitchNumUpdates 0 [0,1] true
        CustomTopology.initNetwork).worker w).cleanToRForJob.get 0)
      (fun _ => (CustomTopology.setSwitchNumUpdates 0 [0,1] true
        CustomTopology.initNetwork).tor.cleanUpperLevelSwitchForJob.get 0) := by
  intro law
  obtain ⟨v,⟨member,_,cleans⟩,_⟩ := law.lower 0 (by decide)
  have none : ∀ v ∈ [0,1], ((CustomTopology.setSwitchNumUpdates 0 [0,1] true
      CustomTopology.initNetwork).worker v).cleanToRForJob.get 0 = false := by decide
  exact Bool.false_ne_true ((none v member).symm.trans cleans)

end CloudSim
