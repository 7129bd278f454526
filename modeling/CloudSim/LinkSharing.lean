import CloudSim.Tree
import Mathlib.Data.Finset.Card

/-! The links that a job's packets cross, and what `accommodate` decides about them. -/
namespace CloudSim

/-- The link of a worker to its ToR switch, or of a ToR switch to the core. -/
inductive Wire where
  | worker (id : Nat)
  | tor (id : Nat)
  deriving DecidableEq, Repr

namespace HierarchicalTopology
variable (topo : HierarchicalTopology)

def involvedTors (wids : List Nat) : List Nat :=
  wids.foldl (fun tors wid => insertId tors (topo.hostToRSwitch wid)) []

def usesCore (wids : List Nat) : Bool := 1 < (topo.involvedTors wids).length

def links (wids : List Nat) : List Wire :=
  wids.map .worker ++ if topo.usesCore wids then (topo.involvedTors wids).map .tor else []

def SharesLink (these those : List Nat) : Prop := ∃ l ∈ topo.links these, l ∈ topo.links those

instance (these those : List Nat) : Decidable (topo.SharesLink these those) :=
  inferInstanceAs (Decidable (∃ _ ∈ _, _))

theorem wireWorkers_involvedTors (jobId : Nat) (wids : List Nat) (net : Network) :
    (topo.wireWorkers jobId wids net).involvedTors = topo.involvedTors wids := by
  have grown (s : Wiring) : (wids.foldl (topo.wireWorker jobId) s).involvedTors =
      wids.foldl (fun tors wid => insertId tors (topo.hostToRSwitch wid)) s.involvedTors := by
    induction wids generalizing s with
    | nil => rfl
    | cons wid rest ih => exact ih (topo.wireWorker jobId s wid)
  exact grown ⟨net,default,[]⟩

/-- Placement makes the core the top of exactly the jobs that use it. -/
theorem topLevel_eq_usesCore (jobId : Nat) (wids torOrder : List Nat) (net : Network)
    (order : torOrder.Perm (topo.wireWorkers jobId wids net).involvedTors) :
    (topo.setSwitchNumUpdates jobId wids torOrder net).core.topLevelForJob.get jobId =
      topo.usesCore wids := by
  have length : torOrder.length = (topo.involvedTors wids).length := by
    rw [order.length_eq,wireWorkers_involvedTors]
  unfold setSwitchNumUpdates usesCore
  rw [← length]
  dsimp only
  split
  · rename_i several
    simp [several]
  · rename_i single
    simp [single]

variable {topo} {wids these those : List Nat}

theorem mem_involvedTors :
    t ∈ topo.involvedTors wids ↔ ∃ w ∈ wids, topo.hostToRSwitch w = t := by
  have grown (tors : List Nat) :
      t ∈ wids.foldl (fun tors wid => insertId tors (topo.hostToRSwitch wid)) tors ↔
        t ∈ tors ∨ ∃ w ∈ wids, topo.hostToRSwitch w = t := by
    induction wids generalizing tors with
    | nil => simp
    | cons wid rest ih =>
      rw [List.foldl_cons,ih,mem_insertId]
      simp [or_assoc,eq_comm]
  simpa [involvedTors] using grown []

theorem involvedTors_distinct (wids : List Nat) : (topo.involvedTors wids).Nodup := by
  have grown (tors : List Nat) (distinct : tors.Nodup) :
      (wids.foldl (fun tors wid => insertId tors (topo.hostToRSwitch wid)) tors).Nodup := by
    induction wids generalizing tors with
    | nil => exact distinct
    | cons wid rest ih => exact ih _ (insertId_distinct distinct)
  exact grown [] List.nodup_nil

theorem usesCore_iff : topo.usesCore wids = true ↔
    ∃ u ∈ wids, ∃ v ∈ wids, topo.hostToRSwitch u ≠ topo.hostToRSwitch v := by
  have distinct := topo.involvedTors_distinct wids
  rw [usesCore,decide_eq_true_eq,← List.toFinset_card_of_nodup distinct,Finset.one_lt_card]
  simp only [List.mem_toFinset,mem_involvedTors]
  constructor
  · rintro ⟨_,⟨u,first,rfl⟩,_,⟨v,second,rfl⟩,apart⟩
    exact ⟨u,first,v,second,apart⟩
  · rintro ⟨u,first,v,second,apart⟩
    exact ⟨_,⟨u,first,rfl⟩,_,⟨v,second,rfl⟩,apart⟩

@[simp] theorem mem_links_worker : .worker w ∈ topo.links wids ↔ w ∈ wids := by
  unfold links
  split <;> simp

@[simp] theorem mem_links_tor :
    .tor t ∈ topo.links wids ↔ topo.usesCore wids = true ∧ t ∈ topo.involvedTors wids := by
  unfold links
  split <;> simp_all

theorem sharesLink_iff : topo.SharesLink these those ↔
    (∃ w ∈ these, w ∈ those) ∨
      (topo.usesCore these = true ∧ topo.usesCore those = true ∧
        ∃ t ∈ topo.involvedTors these, t ∈ topo.involvedTors those) := by
  constructor
  · rintro ⟨l | t,first,second⟩
    · exact Or.inl ⟨l,mem_links_worker.mp first,mem_links_worker.mp second⟩
    · obtain ⟨core,inside⟩ := mem_links_tor.mp first
      obtain ⟨also,there⟩ := mem_links_tor.mp second
      exact Or.inr ⟨core,also,t,inside,there⟩
  · rintro (⟨w,first,second⟩ | ⟨core,also,t,first,second⟩)
    · exact ⟨.worker w,mem_links_worker.mpr first,mem_links_worker.mpr second⟩
    · exact ⟨.tor t,mem_links_tor.mpr ⟨core,first⟩,mem_links_tor.mpr ⟨also,second⟩⟩

theorem links_mono (subset : these ⊆ those) : topo.links these ⊆ topo.links those := by
  intro l member
  cases l with
  | worker w => exact mem_links_worker.mpr (subset (mem_links_worker.mp member))
  | tor t =>
    obtain ⟨core,inside⟩ := mem_links_tor.mp member
    obtain ⟨u,first,v,second,apart⟩ := usesCore_iff.mp core
    obtain ⟨w,also,under⟩ := mem_involvedTors.mp inside
    exact mem_links_tor.mpr ⟨usesCore_iff.mpr ⟨u,subset first,v,subset second,apart⟩,
      mem_involvedTors.mpr ⟨w,subset also,under⟩⟩

theorem mem_coreTors :
    t ∈ topo.coreTors wids ↔ topo.usesCore wids = true ∧ t ∈ topo.involvedTors wids := by
  change t ∈ (if (topo.involvedTors wids).length = 1 then [] else topo.involvedTors wids) ↔ _
  rw [usesCore,decide_eq_true_eq]
  split
  · rename_i single
    simp [single]
  · rename_i other
    refine ⟨fun member => ⟨?_,member⟩,fun both => both.2⟩
    have := List.length_pos_of_mem member
    omega

/-- `accommodate` takes each of its two sets of workers for one job. -/
theorem accommodate_iff :
    topo.accommodate these those = true ↔ ¬topo.SharesLink these those := by
  rw [sharesLink_iff,accommodate,Bool.and_eq_true,List.all_eq_true,List.all_eq_true,not_or]
  simp only [decide_eq_true_eq,mem_coreTors,not_exists,not_and]
  constructor
  · rintro ⟨workers,tors⟩
    exact ⟨fun w here there => workers w there here,
      fun core also t here there => tors t ⟨also,there⟩ core here⟩
  · rintro ⟨workers,tors⟩
    exact ⟨fun w there here => workers w here there,
      fun t there core here => tors core there.1 t here there.2⟩

/-- Jobs that share no link with `those` but look as if they did when all their workers are
taken for one job: a ToR of `those` has only workers of jobs that stay below it. -/
structure FalseConflict (topo : HierarchicalTopology) (jobs : List (List Nat)) (those : List Nat) :
    Prop where
  workers : ∀ wids ∈ jobs, ∀ w ∈ wids, w ∉ those
  core : topo.usesCore those = true
  several : ∃ first ∈ jobs, ∃ second ∈ jobs, ∃ u ∈ first, ∃ v ∈ second,
    topo.hostToRSwitch u ≠ topo.hostToRSwitch v
  meets : ∃ wids ∈ jobs, ∃ w ∈ wids, topo.hostToRSwitch w ∈ topo.involvedTors those
  within : ∀ wids ∈ jobs, topo.usesCore wids = true →
    ∀ w ∈ wids, topo.hostToRSwitch w ∉ topo.involvedTors those

theorem falseConflict_iff {jobs : List (List Nat)}
    (union : ∀ w, w ∈ these ↔ ∃ wids ∈ jobs, w ∈ wids) : topo.FalseConflict jobs those ↔
      topo.SharesLink these those ∧ ∀ wids ∈ jobs, ¬topo.SharesLink wids those := by
  constructor
  · rintro ⟨workers,core,⟨first,inFirst,second,inSecond,u,hu,v,hv,apart⟩,
      ⟨wids,inJobs,w,member,meets⟩,within⟩
    constructor
    · refine sharesLink_iff.mpr (Or.inr ⟨usesCore_iff.mpr ?_,core,_,?_,meets⟩)
      · exact ⟨u,(union u).mpr ⟨first,inFirst,hu⟩,v,(union v).mpr ⟨second,inSecond,hv⟩,apart⟩
      · exact mem_involvedTors.mpr ⟨w,(union w).mpr ⟨wids,inJobs,member⟩,rfl⟩
    · intro wids inJobs shares
      rcases sharesLink_iff.mp shares with ⟨w,here,there⟩ | ⟨uses,_,t,here,there⟩
      · exact workers wids inJobs w here there
      · obtain ⟨w,inside,rfl⟩ := mem_involvedTors.mp here
        exact within wids inJobs uses w inside there
  · rintro ⟨shares,apart⟩
    have workers (wids) (inJobs : wids ∈ jobs) (w) (here : w ∈ wids) : w ∉ those := fun there =>
      apart wids inJobs (sharesLink_iff.mpr (Or.inl ⟨w,here,there⟩))
    rcases sharesLink_iff.mp shares with ⟨w,here,there⟩ | ⟨uses,core,t,here,there⟩
    · obtain ⟨wids,inJobs,inside⟩ := (union w).mp here
      exact absurd there (workers wids inJobs w inside)
    · refine ⟨workers,core,?_,?_,fun wids inJobs uses w inside meets => ?_⟩
      · obtain ⟨u,first,v,second,other⟩ := usesCore_iff.mp uses
        obtain ⟨a,inA,hu⟩ := (union u).mp first
        obtain ⟨b,inB,hv⟩ := (union v).mp second
        exact ⟨a,inA,b,inB,u,hu,v,hv,other⟩
      · obtain ⟨w,inside,rfl⟩ := mem_involvedTors.mp here
        obtain ⟨wids,inJobs,inside⟩ := (union w).mp inside
        exact ⟨wids,inJobs,w,inside,there⟩
      · exact apart wids inJobs (sharesLink_iff.mpr (Or.inr ⟨uses,core,_,
          mem_involvedTors.mpr ⟨w,inside,rfl⟩,meets⟩))

/-- A link shared with a job of a list is shared with its union. -/
theorem SharesLink.of_job {jobs : List (List Nat)}
    (union : ∀ w, w ∈ these ↔ ∃ wids ∈ jobs, w ∈ wids) (inJobs : wids ∈ jobs)
    (shares : topo.SharesLink wids those) : topo.SharesLink these those := by
  obtain ⟨l,here,there⟩ := shares
  exact ⟨l,links_mono (fun w inside => (union w).mpr ⟨wids,inJobs,inside⟩) here,there⟩

/-- For the union of the worker sets of some jobs `accommodate` tells exactly whether another job
shares a link with one of them, unless there is a false conflict. -/
theorem accommodate_exact_iff (topo : HierarchicalTopology) (jobs : List (List Nat))
    (these those : List Nat) (union : ∀ w, w ∈ these ↔ ∃ wids ∈ jobs, w ∈ wids) :
    (topo.accommodate these those = true ↔ ∀ wids ∈ jobs, ¬topo.SharesLink wids those) ↔
      ¬topo.FalseConflict jobs those := by
  rw [falseConflict_iff union,accommodate_iff]
  constructor
  · rintro exact' ⟨shares,apart⟩
    exact exact'.mpr apart shares
  · intro clear
    constructor
    · exact fun apart wids inJobs shares => apart (shares.of_job union inJobs)
    · exact fun apart shares => clear ⟨shares,apart⟩

/-- Two workers per ToR switch. -/
def threePorts : HierarchicalTopology := ⟨3,by decide,by decide⟩

/-- A job of two ToR switches shares no link with a job of either, and is accepted next to one of
them. -/
theorem accommodate_exact_one_job :
    threePorts.accommodate [0] [1,3] = true ↔ ∀ wids ∈ [[0]], ¬threePorts.SharesLink wids [1,3] :=
  (accommodate_exact_iff threePorts [[0]] [0] [1,3] (by simp)).mpr (by
    rintro ⟨_,_,⟨_,first,_,second,u,hu,v,hv,apart⟩,_⟩
    simp only [List.mem_singleton] at first second
    subst first second
    rw [List.mem_singleton.mp hu,List.mem_singleton.mp hv] at apart
    exact apart rfl)

/-- It is refused next to both. -/
theorem accommodate_refuses_disjoint_job :
    [[0],[2]].Pairwise (fun a b => ¬threePorts.SharesLink a b) ∧
      (∀ wids ∈ [[0],[2]], ¬threePorts.SharesLink wids [1,3]) ∧
      threePorts.accommodate [0,2] [1,3] = false := by
  decide

end HierarchicalTopology

namespace Topology

def links : Topology → List Nat → List Wire
  | custom,wids => wids.map .worker
  | hierarchical topo,wids => topo.links wids

def SharesLink (topo : Topology) (these those : List Nat) : Prop :=
  ∃ l ∈ topo.links these, l ∈ topo.links those

instance (topo : Topology) (these those : List Nat) : Decidable (topo.SharesLink these those) :=
  inferInstanceAs (Decidable (∃ _ ∈ _, _))

end Topology
end CloudSim
