import CloudSim.Network

/-! The aggregation tree of one placed job, and that `set_switch_num_updates` wires it. -/
namespace CloudSim

/-- The workers of a job in the order of its run configuration, and the ToRs above them. -/
structure Tree where
  workers : List Nat
  tors : List Nat
  torOf : Nat → Nat
  workersDistinct : workers.Nodup
  torsDistinct : tors.Nodup
  involved : ∀ t, t ∈ tors ↔ ∃ w ∈ workers, torOf w = t

namespace Tree

def under (tree : Tree) (t : Nat) : List Nat := tree.workers.filter fun w => tree.torOf w == t

def flat (tree : Tree) : Bool := !decide (1 < tree.tors.length)

/-- The worker that cleans ToR `t`, and the ToR whose cleaner cleans the core. -/
def cleaner (tree : Tree) (t : Nat) : Nat := (tree.under t).headD 0

def upperCleaner (tree : Tree) : Nat := tree.tors.headD 0

theorem mem_under (tree : Tree) : w ∈ tree.under t ↔ w ∈ tree.workers ∧ tree.torOf w = t := by
  simp [under]

theorem under_distinct (tree : Tree) (t : Nat) : (tree.under t).Nodup :=
  tree.workersDistinct.filter _

theorem torOf_mem (tree : Tree) (member : w ∈ tree.workers) : tree.torOf w ∈ tree.tors :=
  (tree.involved _).mpr ⟨w,member,rfl⟩

theorem under_nonempty (tree : Tree) (member : t ∈ tree.tors) : 0 < (tree.under t).length := by
  obtain ⟨w,inside,rfl⟩ := (tree.involved t).mp member
  exact List.length_pos_of_mem (tree.mem_under.mpr ⟨inside,rfl⟩)

theorem under_length_le (tree : Tree) (t : Nat) : (tree.under t).length ≤ tree.workers.length :=
  List.length_filter_le _ _

theorem cleaner_mem (tree : Tree) (member : t ∈ tree.tors) : tree.cleaner t ∈ tree.under t := by
  have nonempty := tree.under_nonempty member
  unfold cleaner
  cases list : tree.under t with
  | nil => simp [list] at nonempty
  | cons w rest => exact List.mem_cons_self

theorem upperCleaner_mem (tree : Tree) (tall : tree.flat = false) : tree.upperCleaner ∈ tree.tors := by
  have several : 1 < tree.tors.length := by simpa [Tree.flat] using tall
  unfold Tree.upperCleaner
  cases tors : tree.tors with
  | nil => simp [tors] at several
  | cons t rest => exact List.mem_cons_self

theorem tors_length_le (tree : Tree) : tree.tors.length ≤ tree.workers.length := by
  have inside : tree.tors ⊆ tree.workers.map tree.torOf := by
    intro t member
    obtain ⟨w,inside,same⟩ := (tree.involved t).mp member
    exact List.mem_map.mpr ⟨w,inside,same⟩
  simpa using (tree.torsDistinct.subperm inside).length_le

end Tree

/-- What the data plane reads of a placed job. -/
structure Wired (tree : Tree) (jobId : Nat) (net : Network) : Prop where
  torId : ∀ t ∈ tree.tors, (net.tor t).id = t
  torLayer : ∀ t ∈ tree.tors, (net.tor t).layer = 0
  torUpdates : ∀ t ∈ tree.tors, (net.tor t).numUpdatesForJob.get jobId = (tree.under t).length
  torDownward : ∀ t ∈ tree.tors, (net.tor t).downwardIdsForJob.get jobId = tree.under t
  torTop : ∀ t ∈ tree.tors, (net.tor t).topLevelForJob.get jobId = tree.flat
  torUpper : ∀ t ∈ tree.tors, (net.tor t).upperLevelSwitch.isSome
  torCleans : ∀ t ∈ tree.tors, (net.tor t).cleanUpperLevelSwitchForJob.get jobId =
    (!tree.flat && decide (t = tree.upperCleaner))
  coreLayer : net.core.layer = 1
  coreTop : tree.flat = false → net.core.topLevelForJob.get jobId = true
  coreUpdates : tree.flat = false → net.core.numUpdatesForJob.get jobId = tree.tors.length
  coreDownward : tree.flat = false → net.core.downwardIdsForJob.get jobId = tree.tors
  workerId : ∀ w ∈ tree.workers, (net.worker w).id = w
  workerTor : ∀ w ∈ tree.workers, (net.worker w).tor = tree.torOf w
  workerCleans : ∀ w ∈ tree.workers, (net.worker w).cleanToRForJob.get jobId =
    decide (w = tree.cleaner (tree.torOf w))

theorem Wired.of_config {tree : Tree} {jobId : Nat} {net net' : Network}
    (wired : Wired tree jobId net) (tors : ∀ t, (net'.tor t).config = (net.tor t).config)
    (core : net'.core.config = net.core.config)
    (workers : ∀ w, (net'.worker w).config = (net.worker w).config) : Wired tree jobId net' where
  torId t inside := (congrArg Switch.id (tors t)).trans (wired.torId t inside)
  torLayer t inside := (congrArg Switch.layer (tors t)).trans (wired.torLayer t inside)
  torUpdates t inside :=
    (congrArg (fun sw => sw.numUpdatesForJob.get jobId) (tors t)).trans (wired.torUpdates t inside)
  torDownward t inside :=
    (congrArg (fun sw => sw.downwardIdsForJob.get jobId) (tors t)).trans
      (wired.torDownward t inside)
  torTop t inside :=
    (congrArg (fun sw => sw.topLevelForJob.get jobId) (tors t)).trans (wired.torTop t inside)
  torUpper t inside := by
    have same : (net'.tor t).config.upperLevelSwitch = (net.tor t).config.upperLevelSwitch :=
      congrArg Switch.upperLevelSwitch (tors t)
    exact (congrArg Option.isSome same).trans (wired.torUpper t inside)
  torCleans t inside :=
    (congrArg (fun sw => sw.cleanUpperLevelSwitchForJob.get jobId) (tors t)).trans
      (wired.torCleans t inside)
  coreLayer := (congrArg Switch.layer core).trans wired.coreLayer
  coreTop tall := (congrArg (fun sw => sw.topLevelForJob.get jobId) core).trans (wired.coreTop tall)
  coreUpdates tall :=
    (congrArg (fun sw => sw.numUpdatesForJob.get jobId) core).trans (wired.coreUpdates tall)
  coreDownward tall :=
    (congrArg (fun sw => sw.downwardIdsForJob.get jobId) core).trans (wired.coreDownward tall)
  workerId w member := (congrArg Worker.id (workers w)).trans (wired.workerId w member)
  workerTor w member := (congrArg Worker.tor (workers w)).trans (wired.workerTor w member)
  workerCleans w member :=
    (congrArg (fun v => v.cleanToRForJob.get jobId) (workers w)).trans
      (wired.workerCleans w member)

namespace HierarchicalTopology

theorem wids_length_lt (topo : HierarchicalTopology) {wids : List Nat} (distinct : wids.Nodup)
    (existing : ∀ w ∈ wids, w < topo.ports * (topo.ports - 1)) : wids.length < 2^31 := by
  have inside : wids ⊆ List.range (topo.ports * (topo.ports - 1)) :=
    fun w member => List.mem_range.mpr (existing w member)
  have counted := (distinct.subperm inside).length_le
  rw [List.length_range] at counted
  exact counted.trans_lt topo.nodesFit

/-- The fields that are fixed when the network is constructed. -/
structure Built (topo : HierarchicalTopology) (net : Network) : Prop where
  torId : ∀ t, (net.tor t).id = t
  torLayer : ∀ t, (net.tor t).layer = 0
  torUpper : ∀ t, (net.tor t).upperLevelSwitch = some topo.ports
  coreLayer : net.core.layer = 1
  workerId : ∀ w, (net.worker w).id = w
  workerTor : ∀ w, (net.worker w).tor = topo.hostToRSwitch w

/-- No map holds an entry for the job. -/
structure Unplaced (jobId : Nat) (net : Network) : Prop where
  updates : ∀ t, (net.tor t).numUpdatesForJob.get jobId = 0
  downward : ∀ t, (net.tor t).downwardIdsForJob.get jobId = []
  cleans : ∀ t, (net.tor t).cleanUpperLevelSwitchForJob.get jobId = false
  coreDownward : net.core.downwardIdsForJob.get jobId = []
  workerCleans : ∀ w, (net.worker w).cleanToRForJob.get jobId = false

section config
variable {net net' : Network} (tors : ∀ t, (net'.tor t).config = (net.tor t).config)
  (core : net'.core.config = net.core.config)
  (workers : ∀ w, (net'.worker w).config = (net.worker w).config)
include tors core workers

theorem Built.of_config {topo : HierarchicalTopology} (built : Built topo net) :
    Built topo net' where
  torId t := (congrArg Switch.id (tors t)).trans (built.torId t)
  torLayer t := (congrArg Switch.layer (tors t)).trans (built.torLayer t)
  torUpper t := (congrArg Switch.upperLevelSwitch (tors t)).trans (built.torUpper t)
  coreLayer := (congrArg Switch.layer core).trans built.coreLayer
  workerId w := (congrArg Worker.id (workers w)).trans (built.workerId w)
  workerTor w := (congrArg Worker.tor (workers w)).trans (built.workerTor w)

theorem Unplaced.of_config (unplaced : Unplaced jobId net) : Unplaced jobId net' where
  updates t :=
    (congrArg (fun sw => sw.numUpdatesForJob.get jobId) (tors t)).trans (unplaced.updates t)
  downward t :=
    (congrArg (fun sw => sw.downwardIdsForJob.get jobId) (tors t)).trans (unplaced.downward t)
  cleans t := (congrArg (fun sw => sw.cleanUpperLevelSwitchForJob.get jobId) (tors t)).trans
    (unplaced.cleans t)
  coreDownward :=
    (congrArg (fun sw => sw.downwardIdsForJob.get jobId) core).trans unplaced.coreDownward
  workerCleans w :=
    (congrArg (fun v => v.cleanToRForJob.get jobId) (workers w)).trans (unplaced.workerCleans w)

end config

theorem initNetwork_built (topo : HierarchicalTopology) : Built topo topo.initNetwork :=
  ⟨fun _ => rfl,fun _ => rfl,fun _ => rfl,rfl,fun _ => rfl,fun _ => rfl⟩

theorem initNetwork_unplaced (topo : HierarchicalTopology) (jobId : Nat) :
    Unplaced jobId topo.initNetwork :=
  ⟨fun _ => rfl,fun _ => rfl,fun _ => rfl,rfl,fun _ => rfl⟩

/-- The first loop after the workers `ws`. -/
structure Wires (topo : HierarchicalTopology) (jobId : Nat) (core : Switch) (ws : List Nat)
    (s : Wiring) : Prop where
  built : Built topo s.net
  core : s.net.core = core
  updates : ∀ t, (s.net.tor t).numUpdatesForJob.get jobId =
    (ws.filter fun w => topo.hostToRSwitch w == t).length
  downward : ∀ t, (s.net.tor t).downwardIdsForJob.get jobId =
    ws.filter fun w => topo.hostToRSwitch w == t
  cleans : ∀ t, (s.net.tor t).cleanUpperLevelSwitchForJob.get jobId = false
  workerCleans : ∀ w, (s.net.worker w).cleanToRForJob.get jobId = true ↔
    (ws.filter fun v => topo.hostToRSwitch v == topo.hostToRSwitch w).head? = some w
  cleanerSet : ∀ t, s.cleanerWorkerSet.get t = true ↔ ∃ w ∈ ws, topo.hostToRSwitch w = t
  involved : ∀ t, t ∈ s.involvedTors ↔ ∃ w ∈ ws, topo.hostToRSwitch w = t
  involvedDistinct : s.involvedTors.Nodup

theorem mem_insertId : x ∈ insertId ids new ↔ x ∈ ids ∨ x = new := by
  unfold insertId
  split
  · constructor
    · exact Or.inl
    · rintro (member | rfl) <;> assumption
  · simp

theorem insertId_distinct (distinct : ids.Nodup) : (insertId ids new).Nodup := by
  unfold insertId
  split
  · exact distinct
  · rename_i fresh
    exact List.nodup_append.mpr ⟨distinct,List.nodup_singleton _,by
      intro a member b same
      rw [List.mem_singleton.mp same]
      rintro rfl
      exact fresh member⟩

theorem filter_snoc (ws : List Nat) (w : Nat) (p : Nat → Bool) :
    (ws ++ [w]).filter p = if p w then ws.filter p ++ [w] else ws.filter p := by
  by_cases keep : p w = true <;> simp [List.filter_append,keep]

theorem wireWorker_worker (topo : HierarchicalTopology) (jobId : Nat) (s : Wiring) (w : Nat) :
    (topo.wireWorker jobId s w).net.worker =
      if s.cleanerWorkerSet.get (topo.hostToRSwitch w) then s.net.worker
      else (s.net.setWorker w { s.net.worker w with
        cleanToRForJob := (s.net.worker w).cleanToRForJob.put jobId true }).worker := by
  simp only [wireWorker]
  split <;> rfl

theorem wireWorker_tor (topo : HierarchicalTopology) (jobId : Nat) (s : Wiring) (w t : Nat) :
    (topo.wireWorker jobId s w).net.tor t =
      if t = topo.hostToRSwitch w then
        { s.net.tor t with
          numUpdatesForJob := (s.net.tor t).numUpdatesForJob.put jobId
            (u32 ((s.net.tor t).numUpdatesForJob.get jobId + 1))
          downwardIdsForJob := (s.net.tor t).downwardIdsForJob.put jobId
            (insertId ((s.net.tor t).downwardIdsForJob.get jobId) w) }
      else s.net.tor t := by
  simp only [wireWorker,Network.setTor]
  split <;> split <;> simp_all

theorem wireWorker_core (topo : HierarchicalTopology) (jobId : Nat) (s : Wiring) (w : Nat) :
    (topo.wireWorker jobId s w).net.core = s.net.core := by
  simp only [wireWorker]
  split <;> rfl

theorem wireWorker_built {topo : HierarchicalTopology} {s : Wiring} (built : topo.Built s.net)
    (jobId w : Nat) : topo.Built (topo.wireWorker jobId s w).net := by
  have workers := wireWorker_worker topo jobId s w
  have tors := wireWorker_tor topo jobId s w
  refine ⟨fun t => ?_,fun t => ?_,fun t => ?_,wireWorker_core topo jobId s w ▸ built.coreLayer,
    fun v => ?_,fun v => ?_⟩
  · rw [tors]; split <;> exact built.torId t
  · rw [tors]; split <;> exact built.torLayer t
  · rw [tors]; split <;> exact built.torUpper t
  · rw [workers]
    split
    · exact built.workerId v
    · by_cases same : v = w
      · subst same; simpa using built.workerId v
      · simpa [same] using built.workerId v
  · rw [workers]
    split
    · exact built.workerTor v
    · by_cases same : v = w
      · subst same; simpa using built.workerTor v
      · simpa [same] using built.workerTor v

/-- A worker becomes the cleaner of its rack unless the rack has one. -/
theorem wireWorker_cleans {topo : HierarchicalTopology} {s : Wiring}
    (wires : Wires topo jobId core ws s) (w v : Nat) :
    ((topo.wireWorker jobId s w).net.worker v).cleanToRForJob.get jobId = true ↔
      ((ws ++ [w]).filter fun u => topo.hostToRSwitch u == topo.hostToRSwitch v).head? = some v := by
  rw [wireWorker_worker,filter_snoc]
  cases known : s.cleanerWorkerSet.get (topo.hostToRSwitch w) with
  | true =>
    obtain ⟨u,inside,sameTor⟩ := (wires.cleanerSet _).mp known
    by_cases here : topo.hostToRSwitch w = topo.hostToRSwitch v
    · have earlier : ws.filter (fun x => topo.hostToRSwitch x == topo.hostToRSwitch v) ≠ [] :=
        List.ne_nil_of_mem (List.mem_filter.mpr ⟨inside,by simp [sameTor,here]⟩)
      simp [here,wires.workerCleans,List.head?_append_of_ne_nil _ earlier]
    · simp [here,wires.workerCleans]
  | false =>
    have none : ws.filter (fun x => topo.hostToRSwitch x == topo.hostToRSwitch w) = [] := by
      apply List.filter_eq_nil_iff.mpr
      intro u inside same
      have known' := (wires.cleanerSet _).mpr ⟨u,inside,by simpa using same⟩
      simp [known'] at known
    by_cases same : v = w
    · subst same; simp [none]
    · by_cases here : topo.hostToRSwitch w = topo.hostToRSwitch v
      · have old := wires.workerCleans v
        rw [← here,none] at old
        have keep : (topo.hostToRSwitch w == topo.hostToRSwitch v) = true := by simpa using here
        simp only [keep,Bool.false_eq_true,↓reduceIte]
        rw [← here,none]
        simp [same,old,Ne.symm same]
      · simp [same,here,wires.workerCleans]

theorem wireWorker_wires (topo : HierarchicalTopology) {jobId : Nat} {core : Switch}
    {ws : List Nat} {s : Wiring} (wires : Wires topo jobId core ws s) (w : Nat)
    (fresh : w ∉ ws) (small : ws.length + 1 < 2^32) :
    Wires topo jobId core (ws ++ [w]) (topo.wireWorker jobId s w) := by
  have bound (t : Nat) : (ws.filter fun v => topo.hostToRSwitch v == t).length + 1 < 2^32 :=
    Nat.lt_of_le_of_lt (Nat.succ_le_succ (List.length_filter_le _ _)) small
  have tors := wireWorker_tor topo jobId s w
  refine
    { built := wireWorker_built wires.built jobId w
      core := (wireWorker_core topo jobId s w).trans wires.core
      updates := fun t => ?_
      downward := fun t => ?_
      cleans := fun t => ?_
      workerCleans := wireWorker_cleans wires w
      cleanerSet := fun t => ?_
      involved := fun t => ?_
      involvedDistinct := insertId_distinct wires.involvedDistinct }
  · rw [tors,filter_snoc]
    by_cases here : t = topo.hostToRSwitch w
    · simp [← here,wires.updates,u32_of_lt (bound t)]
    · simp [here,Ne.symm here,wires.updates]
  · rw [tors,filter_snoc]
    by_cases here : t = topo.hostToRSwitch w
    · have absent : w ∉ ws.filter fun v => topo.hostToRSwitch v == t :=
        fun member => fresh (List.mem_of_mem_filter member)
      simp [← here,wires.downward,insertId,absent]
    · simp [here,Ne.symm here,wires.downward]
  · rw [tors]; split <;> exact wires.cleans t
  · simp only [wireWorker,Table.get_put,List.mem_append,List.mem_singleton]
    by_cases here : t = topo.hostToRSwitch w
    · simp [here]
    · simp only [if_neg here,wires.cleanerSet]
      constructor
      · rintro ⟨u,inside,same⟩; exact ⟨u,Or.inl inside,same⟩
      · rintro ⟨u,inside | rfl,same⟩
        · exact ⟨u,inside,same⟩
        · exact absurd same.symm here
  · simp only [wireWorker,mem_insertId,wires.involved,List.mem_append,List.mem_singleton]
    constructor
    · rintro (⟨u,inside,same⟩ | rfl)
      · exact ⟨u,Or.inl inside,same⟩
      · exact ⟨w,Or.inr rfl,rfl⟩
    · rintro ⟨u,inside | rfl,same⟩
      · exact Or.inl ⟨u,inside,same⟩
      · exact Or.inr same.symm

/-- By induction on the run configuration, from its end. -/
theorem wireWorkers_wires (topo : HierarchicalTopology) {jobId : Nat} {net : Network}
    (built : Built topo net) (unplaced : Unplaced jobId net) (wids : List Nat)
    (distinct : wids.Nodup) (small : wids.length < 2^32) :
    Wires topo jobId net.core wids (topo.wireWorkers jobId wids net) := by
  induction wids using List.reverseRecOn with
  | nil =>
    exact
      { built := built, core := rfl, updates := by simpa [wireWorkers] using unplaced.updates,
        downward := by simpa [wireWorkers] using unplaced.downward, cleans := unplaced.cleans,
        workerCleans := by intro w; simp [wireWorkers,unplaced.workerCleans],
        cleanerSet := by intro t; simp [wireWorkers], involved := by intro t; simp [wireWorkers],
        involvedDistinct := List.nodup_nil }
  | append_singleton ws w ih =>
    obtain ⟨before,_,apart⟩ := List.nodup_append.mp distinct
    have shorter : ws.length < 2^32 := by
      simp only [List.length_append,List.length_singleton] at small; omega
    have step := wireWorker_wires topo (ih before shorter) w
      (fun member => apart w member w (List.mem_singleton_self w) rfl)
      (by simpa using small)
    simpa only [wireWorkers,List.foldl_append,List.foldl_cons,List.foldl_nil] using step

/-- A loop over distinct ToRs that updates each from its own old value. -/
theorem foldl_setTor (update : Nat → Switch → Switch) (order : List Nat)
    (distinct : order.Nodup) (net : Network) :
    let result := order.foldl (fun net t => net.setTor t (update t (net.tor t))) net
    (∀ t, result.tor t = if t ∈ order then update t (net.tor t) else net.tor t) ∧
      result.core = net.core ∧ result.worker = net.worker := by
  induction order generalizing net with
  | nil => simp
  | cons head rest ih =>
    obtain ⟨absent,distinct⟩ := List.nodup_cons.mp distinct
    obtain ⟨tors,core,workers⟩ := ih distinct (net.setTor head (update head (net.tor head)))
    refine ⟨fun t => ?_,core,workers⟩
    rw [List.foldl_cons,tors]
    by_cases here : t = head
    · subst here; simp [absent]
    · simp [here]

theorem foldl_insertId (order ids : List Nat) (distinct : (ids ++ order).Nodup) :
    order.foldl insertId ids = ids ++ order := by
  induction order generalizing ids with
  | nil => simp
  | cons head rest ih =>
    have absent : head ∉ ids := by
      intro member
      exact (List.nodup_append.mp distinct).2.2 head member head List.mem_cons_self rfl
    rw [List.foldl_cons]
    have grown : insertId ids head = ids ++ [head] := if_neg absent
    rw [grown,ih _ (by simpa using distinct),List.append_assoc,List.singleton_append]

/-- After placement the maps of every involved object hold the job's aggregation tree. -/
theorem setSwitchNumUpdates_wired (topo : HierarchicalTopology) (tree : Tree)
    (torOf : tree.torOf = topo.hostToRSwitch) {jobId : Nat} {net : Network}
    (built : Built topo net) (unplaced : Unplaced jobId net) (small : tree.workers.length < 2^32) :
    Wired tree jobId (topo.setSwitchNumUpdates jobId tree.workers tree.tors net) := by
  have wires := wireWorkers_wires topo built unplaced tree.workers tree.workersDistinct small
  have below (t : Nat) : tree.under t =
      tree.workers.filter fun w => topo.hostToRSwitch w == t := by simp only [Tree.under,torOf]
  have fewTors : tree.tors.length < 2^32 := Nat.lt_of_le_of_lt tree.tors_length_le small
  have cleans (w : Nat) (member : w ∈ tree.workers) :
      ((topo.wireWorkers jobId tree.workers net).net.worker w).cleanToRForJob.get jobId =
        decide (w = tree.cleaner (tree.torOf w)) := by
    have first := wires.workerCleans w
    rw [← below,← torOf] at first
    have inside : w ∈ tree.under (tree.torOf w) := tree.mem_under.mpr ⟨member,rfl⟩
    rw [Bool.eq_iff_iff,first,decide_eq_true_iff,Tree.cleaner]
    cases list : tree.under (tree.torOf w) with
    | nil => simp [list] at inside
    | cons head rest => simp [eq_comm]
  unfold setSwitchNumUpdates
  by_cases several : 1 < tree.tors.length
  · have tall : tree.flat = false := by simp [Tree.flat,several]
    obtain ⟨tors,core,workers⟩ := foldl_setTor
      (fun t tor => { tor with
        cleanUpperLevelSwitchForJob :=
          if t = tree.tors.headD 0 then tor.cleanUpperLevelSwitchForJob.put jobId true
          else tor.cleanUpperLevelSwitchForJob
        topLevelForJob := tor.topLevelForJob.put jobId false })
      tree.tors tree.torsDistinct (topo.wireWorkers jobId tree.workers net).net
    simp only [if_pos several]
    change ∀ t, (tree.tors.foldl (wireTor jobId (tree.tors.headD 0)) _).tor t = _ at tors
    change (tree.tors.foldl (wireTor jobId (tree.tors.headD 0)) _).core = _ at core
    change (tree.tors.foldl (wireTor jobId (tree.tors.headD 0)) _).worker = _ at workers
    have ids := foldl_insertId tree.tors [] (by simpa using tree.torsDistinct)
    generalize tree.tors.foldl (wireTor jobId (tree.tors.headD 0)) _ = wired at tors core workers ⊢
    constructor
    case torId => intro t inside; simp [tors,inside,wires.built.torId]
    case torLayer => intro t inside; simp [tors,inside,wires.built.torLayer]
    case torUpdates => intro t inside; simp [tors,inside,wires.updates,below]
    case torDownward => intro t inside; simp [tors,inside,wires.downward,below]
    case torTop => intro t inside; simp [tors,inside,tall]
    case torUpper => intro t inside; simp [tors,inside,wires.built.torUpper]
    case torCleans =>
      intro t inside
      simp only [tors,if_pos inside,tall]
      by_cases first : t = tree.upperCleaner
      · rw [if_pos (show t = tree.tors.headD 0 from first),Table.get_put_same,
          decide_eq_true first]
        rfl
      · rw [if_neg (show ¬t = tree.tors.headD 0 from first),wires.cleans,decide_eq_false first]
        rfl
    case coreLayer => simpa [core] using wires.built.coreLayer
    case coreTop => intro _; simp
    case coreUpdates => intro _; simp [u32_of_lt fewTors]
    case coreDownward => intro _; simp [core,wires.core,unplaced.coreDownward,ids]
    case workerId => intro w _; simp [workers,wires.built.workerId]
    case workerTor => intro w _; simp [workers,wires.built.workerTor,torOf]
    case workerCleans => intro w inside; simpa only [workers] using cleans w inside
  · have short : tree.flat = true := by simpa [Tree.flat] using several
    obtain ⟨tors,core,workers⟩ := foldl_setTor
      (fun t tor => { tor with topLevelForJob := tor.topLevelForJob.put jobId true })
      tree.tors tree.torsDistinct (topo.wireWorkers jobId tree.workers net).net
    simp only [if_neg several]
    change ∀ t, (tree.tors.foldl (wireTop jobId) _).tor t = _ at tors
    change (tree.tors.foldl (wireTop jobId) _).core = _ at core
    change (tree.tors.foldl (wireTop jobId) _).worker = _ at workers
    generalize tree.tors.foldl (wireTop jobId) _ = wired at tors core workers ⊢
    constructor
    case torId => intro t inside; simp [tors,inside,wires.built.torId]
    case torLayer => intro t inside; simp [tors,inside,wires.built.torLayer]
    case torUpdates => intro t inside; simp [tors,inside,wires.updates,below]
    case torDownward => intro t inside; simp [tors,inside,wires.downward,below]
    case torTop => intro t inside; simp [tors,inside,short]
    case torUpper => intro t inside; simp [tors,inside,wires.built.torUpper]
    case torCleans => intro t inside; simp [tors,inside,short,wires.cleans]
    case coreLayer => simpa [core] using wires.built.coreLayer
    case coreTop => intro tall; simp [short] at tall
    case coreUpdates => intro tall; simp [short] at tall
    case coreDownward => intro tall; simp [short] at tall
    case workerId => intro w _; simp [workers,wires.built.workerId]
    case workerTor => intro w _; simp [workers,wires.built.workerTor,torOf]
    case workerCleans => intro w inside; simpa only [workers] using cleans w inside

def recorded (sw : Switch) : Table Nat (Table SlotKey Nat) × Table Nat (Table SlotKey (Finset Nat)) :=
  (sw.countForTensorKey,sw.seenForTensorKey)

structure SameRecords (old new : Network) : Prop where
  tors : ∀ t, recorded (new.tor t) = recorded (old.tor t)
  core : recorded new.core = recorded old.core
  workers : ∀ w, (new.worker w).receivedPkts = (old.worker w).receivedPkts

/-- A switch that the placement of a job has changed: what it has recorded and what it holds
for other jobs are as before. -/
structure Edited (jobId : Nat) (old new : Switch) : Prop where
  id : new.id = old.id
  layer : new.layer = old.layer
  upper : new.upperLevelSwitch = old.upperLevelSwitch
  records : recorded new = recorded old
  cleans : ∀ i, i ≠ jobId →
    new.cleanUpperLevelSwitchForJob.get i = old.cleanUpperLevelSwitchForJob.get i
  downward : ∀ i, i ≠ jobId → new.downwardIdsForJob.get i = old.downwardIdsForJob.get i
  updates : ∀ i, i ≠ jobId → new.numUpdatesForJob.get i = old.numUpdatesForJob.get i
  top : ∀ i, i ≠ jobId → new.topLevelForJob.get i = old.topLevelForJob.get i

theorem Edited.refl (jobId : Nat) (sw : Switch) : Edited jobId sw sw :=
  ⟨rfl,rfl,rfl,rfl,fun _ _ => rfl,fun _ _ => rfl,fun _ _ => rfl,fun _ _ => rfl⟩

theorem Edited.trans (first : Edited jobId a b) (second : Edited jobId b c) : Edited jobId a c where
  id := second.id.trans first.id
  layer := second.layer.trans first.layer
  upper := second.upper.trans first.upper
  records := second.records.trans first.records
  cleans i other := (second.cleans i other).trans (first.cleans i other)
  downward i other := (second.downward i other).trans (first.downward i other)
  updates i other := (second.updates i other).trans (first.updates i other)
  top i other := (second.top i other).trans (first.top i other)

structure Edits (jobId : Nat) (old new : Network) : Prop where
  tors : ∀ t, Edited jobId (old.tor t) (new.tor t)
  core : Edited jobId old.core new.core
  workerId : ∀ w, (new.worker w).id = (old.worker w).id
  workerTor : ∀ w, (new.worker w).tor = (old.worker w).tor
  received : ∀ w, (new.worker w).receivedPkts = (old.worker w).receivedPkts
  workerCleans : ∀ w i, i ≠ jobId →
    (new.worker w).cleanToRForJob.get i = (old.worker w).cleanToRForJob.get i

namespace Edits
variable {jobId : Nat} {net old new : Network}

theorem refl (jobId : Nat) (net : Network) : Edits jobId net net :=
  ⟨fun _ => .refl ..,.refl ..,fun _ => rfl,fun _ => rfl,fun _ => rfl,fun _ _ _ => rfl⟩

theorem trans (first : Edits jobId a b) (second : Edits jobId b c) : Edits jobId a c where
  tors t := (first.tors t).trans (second.tors t)
  core := first.core.trans second.core
  workerId w := (second.workerId w).trans (first.workerId w)
  workerTor w := (second.workerTor w).trans (first.workerTor w)
  received w := (second.received w).trans (first.received w)
  workerCleans w i other := (second.workerCleans w i other).trans (first.workerCleans w i other)

theorem setTor {sw : Switch} (edited : Edited jobId (net.tor t) sw) :
    Edits jobId net (net.setTor t sw) := by
  refine ⟨fun s => ?_,.refl ..,fun _ => rfl,fun _ => rfl,fun _ => rfl,fun _ _ _ => rfl⟩
  rcases eq_or_ne s t with rfl | other
  · rw [Network.setTor_same]; exact edited
  · rw [Network.setTor_other _ _ other]; exact .refl ..

theorem appoint (jobId : Nat) (net : Network) (w : Nat) : Edits jobId net
    (net.setWorker w { net.worker w with
      cleanToRForJob := (net.worker w).cleanToRForJob.put jobId true }) := by
  have fields (v : Nat) : let after := (net.setWorker w { net.worker w with
      cleanToRForJob := (net.worker w).cleanToRForJob.put jobId true }).worker v
      after.id = (net.worker v).id ∧ after.tor = (net.worker v).tor ∧
        after.receivedPkts = (net.worker v).receivedPkts ∧ ∀ i, i ≠ jobId →
          after.cleanToRForJob.get i = (net.worker v).cleanToRForJob.get i := by
    rcases eq_or_ne v w with rfl | elsewhere
    · rw [Network.setWorker_same]
      exact ⟨rfl,rfl,rfl,fun _ other => Table.get_put_other _ other _⟩
    · rw [Network.setWorker_other _ _ elsewhere]
      exact ⟨rfl,rfl,rfl,fun _ _ => rfl⟩
  exact ⟨fun _ => .refl ..,.refl ..,fun v => (fields v).1,fun v => (fields v).2.1,
    fun v => (fields v).2.2.1,fun v => (fields v).2.2.2⟩

theorem foldl {f : S → A → S} (net : S → Network)
    (keeps : ∀ s a, Edits jobId (net s) (net (f s a))) (list : List A) (s : S) :
    Edits jobId (net s) (net (list.foldl f s)) := by
  induction list generalizing s with
  | nil => exact .refl ..
  | cons a rest ih => exact (keeps s a).trans (ih (f s a))

theorem records (edits : Edits jobId old new) : SameRecords old new :=
  ⟨fun t => (edits.tors t).records,edits.core.records,edits.received⟩

theorem built {topo : HierarchicalTopology} (edits : Edits jobId old new)
    (built : Built topo old) : Built topo new where
  torId t := (edits.tors t).id.trans (built.torId t)
  torLayer t := (edits.tors t).layer.trans (built.torLayer t)
  torUpper t := (edits.tors t).upper.trans (built.torUpper t)
  coreLayer := edits.core.layer.trans built.coreLayer
  workerId w := (edits.workerId w).trans (built.workerId w)
  workerTor w := (edits.workerTor w).trans (built.workerTor w)

theorem unplaced (edits : Edits jobId old new) (other : i ≠ jobId) (unplaced : Unplaced i old) :
    Unplaced i new where
  updates t := ((edits.tors t).updates i other).trans (unplaced.updates t)
  downward t := ((edits.tors t).downward i other).trans (unplaced.downward t)
  cleans t := ((edits.tors t).cleans i other).trans (unplaced.cleans t)
  coreDownward := (edits.core.downward i other).trans unplaced.coreDownward
  workerCleans w := (edits.workerCleans w i other).trans (unplaced.workerCleans w)

theorem wired {tree : Tree} (edits : Edits jobId old new) (other : i ≠ jobId)
    (wired : Wired tree i old) : Wired tree i new where
  torId t inside := (edits.tors t).id.trans (wired.torId t inside)
  torLayer t inside := (edits.tors t).layer.trans (wired.torLayer t inside)
  torUpdates t inside := ((edits.tors t).updates i other).trans (wired.torUpdates t inside)
  torDownward t inside := ((edits.tors t).downward i other).trans (wired.torDownward t inside)
  torTop t inside := ((edits.tors t).top i other).trans (wired.torTop t inside)
  torUpper t inside := by rw [(edits.tors t).upper]; exact wired.torUpper t inside
  torCleans t inside := ((edits.tors t).cleans i other).trans (wired.torCleans t inside)
  coreLayer := edits.core.layer.trans wired.coreLayer
  coreTop tall := (edits.core.top i other).trans (wired.coreTop tall)
  coreUpdates tall := (edits.core.updates i other).trans (wired.coreUpdates tall)
  coreDownward tall := (edits.core.downward i other).trans (wired.coreDownward tall)
  workerId w member := (edits.workerId w).trans (wired.workerId w member)
  workerTor w member := (edits.workerTor w).trans (wired.workerTor w member)
  workerCleans w member := (edits.workerCleans w i other).trans (wired.workerCleans w member)

end Edits

theorem wireWorker_edits (topo : HierarchicalTopology) (jobId : Nat) (s : Wiring) (wid : Nat) :
    Edits jobId s.net (topo.wireWorker jobId s wid).net := by
  refine Edits.trans (b := if s.cleanerWorkerSet.get (topo.hostToRSwitch wid) then s.net
    else s.net.setWorker wid { s.net.worker wid with
      cleanToRForJob := (s.net.worker wid).cleanToRForJob.put jobId true }) ?_
    (Edits.setTor ⟨rfl,rfl,rfl,rfl,fun _ _ => rfl,fun _ other => Table.get_put_other _ other _,
      fun _ other => Table.get_put_other _ other _,fun _ _ => rfl⟩)
  split
  · exact .refl ..
  · exact Edits.appoint ..

theorem setSwitchNumUpdates_edits (topo : HierarchicalTopology) (jobId : Nat)
    (wids torOrder : List Nat) (net : Network) :
    Edits jobId net (topo.setSwitchNumUpdates jobId wids torOrder net) := by
  have workers : Edits jobId net (topo.wireWorkers jobId wids net).net :=
    Edits.foldl Wiring.net (topo.wireWorker_edits jobId) wids ⟨net,default,[]⟩
  have tor (first : Nat) (net : Network) (t : Nat) :
      Edits jobId net (wireTor jobId first net t) := by
    refine Edits.setTor ⟨rfl,rfl,rfl,rfl,fun i other => ?_,fun _ _ => rfl,fun _ _ => rfl,
      fun _ other => Table.get_put_other _ other _⟩
    dsimp only
    split
    · exact Table.get_put_other _ other _
    · rfl
  have top (net : Network) (t : Nat) : Edits jobId net (wireTop jobId net t) :=
    Edits.setTor ⟨rfl,rfl,rfl,rfl,fun _ _ => rfl,fun _ _ => rfl,fun _ _ => rfl,
      fun _ other => Table.get_put_other _ other _⟩
  unfold setSwitchNumUpdates
  dsimp only
  split
  · refine (workers.trans (Edits.foldl id (tor _) torOrder _)).trans
      ⟨fun _ => .refl ..,?_,fun _ => rfl,fun _ => rfl,fun _ => rfl,fun _ _ _ => rfl⟩
    exact ⟨rfl,rfl,rfl,rfl,fun _ _ => rfl,fun _ other => Table.get_put_other _ other _,
      fun _ other => Table.get_put_other _ other _,fun _ other => Table.get_put_other _ other _⟩
  · refine (workers.trans (Edits.foldl id top torOrder _)).trans
      ⟨fun _ => .refl ..,?_,fun _ => rfl,fun _ => rfl,fun _ => rfl,fun _ _ _ => rfl⟩
    exact ⟨rfl,rfl,rfl,rfl,fun _ _ => rfl,fun _ _ => rfl,fun _ _ => rfl,
      fun _ other => Table.get_put_other _ other _⟩

end HierarchicalTopology
end CloudSim
