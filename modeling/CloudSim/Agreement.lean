import CloudSim.Admission
import CloudSim.PlacementPolicy

/-! The trial placements of `FitFirst` and the placement that the scheduler then makes. -/
namespace CloudSim

/-- Some outcome of sampling gives the job workers. -/
def PlacementAlgo.Placeable (site : Site) (gpu : Nat → Nat) (placement : PlacementAlgo)
    (job : Job) : Prop :=
  ∃ draws config rest, placement.placeJobIn site gpu job draws = some (config,rest) ∧ config ≠ []

def FitFirst.Earliest (site : Site) (placement : PlacementAlgo) (c : Cluster) (jobs : List Job) :
    Option Job → Prop
  | some job => ∃ before after, jobs = before ++ job :: after ∧ c.started job = false ∧
      placement.Placeable site c.gpu job ∧
      ∀ old ∈ before, c.started old = true ∨ ¬placement.Placeable site c.gpu old
  | none => ∀ job ∈ jobs, c.started job = true ∨ ¬placement.Placeable site c.gpu job

/-! Later outcomes do not matter. -/

theorem sample_frame (result : sample candidates k draws = some (selected,rest)) (more : Draws) :
    sample candidates k (draws ++ more) = some (selected,rest ++ more) := by
  cases draws with
  | nil => cases result
  | cons first later =>
    simp only [sample,Option.ite_none_right_eq_some,Option.some.injEq,Prod.mk.injEq] at result
    obtain ⟨sampled,rfl,rfl⟩ := result
    simp [sample,sampled]

variable {site : Site} {gpu : Nat → Nat} {job : Job}

theorem YARNPlacement.placeJobIn_frame
    (result : placeJobIn site gpu job fallback draws = some (config,rest)) (more : Draws) :
    placeJobIn site gpu job fallback (draws ++ more) = some (config,rest ++ more) := by
  unfold placeJobIn at result ⊢
  split at result
  · rename_i single
    obtain ⟨⟨selected,later⟩,drawn,result⟩ := Option.bind_eq_some_iff.mp result
    cases result
    simp [single,sample_frame drawn more]
  · rename_i single
    rw [if_neg single]
    split at result
    · rename_i within
      rw [if_pos within]
      obtain ⟨⟨chosen,later⟩,first,result⟩ := Option.bind_eq_some_iff.mp result
      obtain ⟨⟨selected,last⟩,second,result⟩ := Option.bind_eq_some_iff.mp result
      cases result
      have behind := sample_frame second more
      simp only [placeWithinTor,sample_frame first more,Option.bind_eq_bind,Option.bind_some,behind]
      rfl
    · rename_i within
      rw [if_neg within]
      split at result
      · unfold placeAnywhere at result ⊢
        rename_i fallback
        rw [if_pos fallback]
        split at result
        · rename_i few
          cases result
          rw [if_pos few]
        · rename_i enough
          rw [if_neg enough]
          obtain ⟨⟨selected,later⟩,drawn,result⟩ := Option.bind_eq_some_iff.mp result
          cases result
          simp [sample_frame drawn more]
      · rename_i never
        cases result
        rw [if_neg never]

namespace RandomPlacement

theorem select_frame (result : select site gpu job distributed multiRacks draws =
    some (selected,rest)) (more : Draws) :
    select site gpu job distributed multiRacks (draws ++ more) = some (selected,rest ++ more) := by
  induction draws with
  | nil => cases result
  | cons first later ih =>
    rw [List.cons_append]
    unfold select at result ⊢
    grind

theorem placeJobIn_frame
    (result : placeJobIn site gpu job force forceRacks draws = some (config,rest))
    (more : Draws) :
    placeJobIn site gpu job force forceRacks (draws ++ more) = some (config,rest ++ more) := by
  unfold placeJobIn at result ⊢
  split at result
  · rename_i few
    cases result
    rw [if_pos few]
  · rename_i enough
    rw [if_neg enough]
    obtain ⟨⟨selected,later⟩,found,result⟩ := Option.bind_eq_some_iff.mp result
    cases result
    simp [select_frame found more]

theorem exists_outcome (site : Site) (gpu : Nat → Nat) (job : Job) (force forceRacks : Bool) :
    ∃ draws config, placeJobIn site gpu job force forceRacks draws = some (config,[]) := by
  by_cases few : (gpuSlots gpu site.workers).length < job.gpu
  · exact ⟨[],[],if_pos few⟩
  · have enough : job.gpu ≤ (gpuSlots gpu site.workers).length := Nat.not_lt.mp few
    obtain ⟨selected,sampled,accepted⟩ := exists_accepted force forceRacks enough
    rw [gpuSlots_length] at enough
    have drawn (outcome : List Nat) (member : outcome ∈ ([] : Draws)) :
        Sampled (gpuSlots gpu site.workers) job.gpu outcome := by cases member
    exact ⟨_,_,(placed_iff enough).mpr ⟨selected,select_append drawn rfl sampled accepted,rfl⟩⟩

end RandomPlacement

namespace PlacementAlgo

theorem placeJobIn_frame {placement : PlacementAlgo}
    (result : placement.placeJobIn site gpu job draws = some (config,rest)) (more : Draws) :
    placement.placeJobIn site gpu job (draws ++ more) = some (config,rest ++ more) := by
  cases placement with
  | yarn => exact YARNPlacement.placeJobIn_frame result more
  | random => exact RandomPlacement.placeJobIn_frame result more

theorem exists_outcome (site : Site) (gpu : Nat → Nat) (job : Job) (placement : PlacementAlgo) :
    ∃ draws config, placement.placeJobIn site gpu job draws = some (config,[]) := by
  cases placement with
  | yarn fallback => exact YARNPlacement.exists_outcome site gpu job fallback
  | random force forceRacks => exact RandomPlacement.exists_outcome site gpu job force forceRacks

/-- Whether a job can be placed does not depend on what is sampled. -/
theorem placeable_iff {placement : PlacementAlgo} :
    placement.Placeable site gpu job ↔ placement.Fits site gpu job := by
  constructor
  · rintro ⟨draws,config,rest,placed,nonempty⟩
    exact (placeJobIn_nonempty_iff placed).mp nonempty
  · intro fits
    obtain ⟨draws,config,placed⟩ := exists_outcome site gpu job placement
    exact ⟨draws,config,[],placed,(placeJobIn_nonempty_iff placed).mpr fits⟩

theorem Placeable.nonempty {placement : PlacementAlgo} (placeable : placement.Placeable site gpu job)
    (placed : placement.placeJobIn site gpu job draws = some (config,rest)) : config ≠ [] :=
  (placeJobIn_nonempty_iff placed).mpr (placeable_iff.mp placeable)

end PlacementAlgo

namespace FitFirst
variable {placement : PlacementAlgo} {c : Cluster} {jobs : List Job}

theorem Earliest.cons {chosen : Option Job}
    (passed : c.started first = true ∨ ¬placement.Placeable site c.gpu first)
    (later : Earliest site placement c jobs chosen) :
    Earliest site placement c (first :: jobs) chosen := by
  cases chosen with
  | none =>
    intro job member
    rcases List.mem_cons.mp member with rfl | behind
    · exact passed
    · exact later job behind
  | some job =>
    obtain ⟨before,after,rfl,pending,placeable,earlier⟩ := later
    refine ⟨first :: before,after,rfl,pending,placeable,fun old member => ?_⟩
    rcases List.mem_cons.mp member with rfl | behind
    · exact passed
    · exact earlier old behind

theorem choose_earliest {chosen : Option Job} {draws rest : Draws}
    (result : chooseJobToExecuteIn site placement c jobs draws = some (chosen,rest)) :
    Earliest site placement c jobs chosen := by
  induction jobs generalizing draws with
  | nil =>
    cases result
    intro job member
    cases member
  | cons first later ih =>
    simp only [chooseJobToExecuteIn] at result
    split at result
    · rename_i pending
      obtain ⟨⟨config,others⟩,placed,result⟩ := Option.bind_eq_some_iff.mp result
      dsimp only at result
      split at result
      · rename_i nonempty
        cases result
        exact ⟨[],later,rfl,by simpa using pending,⟨draws,config,_,placed,nonempty⟩,
          fun _ member => by cases member⟩
      · rename_i empty
        exact (ih result).cons (Or.inr fun placeable => empty (placeable.nonempty placed))
    · rename_i started
      exact (ih result).cons (Or.inl (by simpa using started))

theorem choose_returns (site : Site) (placement : PlacementAlgo) (c : Cluster) (jobs : List Job) :
    ∃ draws chosen, chooseJobToExecuteIn site placement c jobs draws = some (chosen,[]) := by
  induction jobs with
  | nil => exact ⟨[],none,rfl⟩
  | cons first later ih =>
    obtain ⟨more,chosen,result⟩ := ih
    by_cases pending : (!c.started first) = true
    · obtain ⟨draws,config,placed⟩ := placement.exists_outcome site c.gpu first
      by_cases empty : config = []
      · have trial := PlacementAlgo.placeJobIn_frame placed more
        refine ⟨draws ++ more,chosen,?_⟩
        simpa [chooseJobToExecuteIn,pending,trial,empty] using result
      · exact ⟨draws,some first,by simp [chooseJobToExecuteIn,pending,placed,empty]⟩
    · exact ⟨more,chosen,by simpa [chooseJobToExecuteIn,pending] using result⟩

end FitFirst

/-! The trials are handed the cluster itself. What they could change of it is `switch_map`, which
they read with `operator[]`. -/

/-- The ToRs by their ids, with `none` for a null pointer. -/
abbrev SwitchMap := Table Nat (Option Nat)

namespace SwitchMap

def initTopo (site : Site) : SwitchMap :=
  site.switches.foldl (fun map tor => map.put tor (some tor)) default

/-- `switch_map[id]`, which enters a null pointer under an absent key. -/
def subscript (map : SwitchMap) (id : Nat) : Option Nat × SwitchMap :=
  (map.get id,if map.contains id then map else map.put id none)

theorem initTopo_get (site : Site) (member : tor ∈ site.switches) :
    initTopo site tor = some (some tor) := by
  have entered (tors : List Nat) (map : SwitchMap) (known : tor ∈ tors ∨ map tor = some (some tor)) :
      tors.foldl (fun map t => map.put t (some t)) map tor = some (some tor) := by
    induction tors generalizing map with
    | nil => simpa using known
    | cons first rest ih =>
      apply ih
      rcases eq_or_ne tor first with rfl | other
      · exact Or.inr (map.put_same tor _)
      · change tor ∈ rest ∨ map.put first (some first) tor = some (some tor)
        rw [Table.put_other map other]
        simpa [other] using known
  exact entered site.switches default (Or.inl member)

theorem subscript_initTopo (site : Site) (member : tor ∈ site.switches) :
    subscript (initTopo site) tor = (some tor,initTopo site) := by
  have known := initTopo_get site member
  simp [subscript,Table.get,Table.contains,known]

end SwitchMap

namespace YARNPlacement

/-- `placeWithinTor` with the map it looks the ToR up in. -/
def placeWithinTorOf (site : Site) (gpu : Nat → Nat) (job : Job) (map : SwitchMap) (draws : Draws) :
    Option (RunConfig × Draws × SwitchMap) := do
  let (chosen,draws) ← sample (torCandidates site gpu job) 1 draws
  let (pointer,map) := map.subscript (chosen.headD 0)
  let tor ← pointer
  let (selected,draws) ← sample (gpuSlots gpu (site.machines tor)) job.gpu draws
  return (RunConfig.tally selected,draws,map)

/-- `place_job_in` with the map, which only its second stage reads. -/
def placeJobInOf (site : Site) (gpu : Nat → Nat) (job : Job) (useRandomWhenFail : Bool)
    (map : SwitchMap) (draws : Draws) : Option (RunConfig × Draws × SwitchMap) :=
  if workerCandidates site gpu job = [] ∧ torCandidates site gpu job ≠ [] then
    placeWithinTorOf site gpu job map draws
  else
    (placeJobIn site gpu job useRandomWhenFail draws).map fun (config,draws) => (config,draws,map)

theorem placeJobInOf_initTopo (fallback : Bool) (draws : Draws) :
    placeJobInOf site gpu job fallback (.initTopo site) draws =
      (placeJobIn site gpu job fallback draws).map fun (config,rest) =>
        (config,rest,.initTopo site) := by
  unfold placeJobInOf
  split
  · rename_i within
    obtain ⟨single,some⟩ := within
    rw [placeJobIn,if_neg (not_not.mpr single),if_pos some,placeWithinTorOf,placeWithinTor]
    cases first : sample (torCandidates site gpu job) 1 draws with
    | none => rfl
    | some result =>
      obtain ⟨chosen,later⟩ := result
      have listed := (mem_torCandidates (sample_one some first)).1
      simp only [Option.bind_eq_bind,Option.bind_some,SwitchMap.subscript_initTopo site listed]
      rw [Option.map_bind]
      rfl
  · rfl

end YARNPlacement

def PlacementAlgo.placeJobInOf (site : Site) (gpu : Nat → Nat) (job : Job) (map : SwitchMap)
    (draws : Draws) : PlacementAlgo → Option (RunConfig × Draws × SwitchMap)
  | .yarn useRandomWhenFail =>
    YARNPlacement.placeJobInOf site gpu job useRandomWhenFail map draws
  | .random forceDistributed forceMultiRacks =>
    (RandomPlacement.placeJobIn site gpu job forceDistributed forceMultiRacks draws).map
      fun (config,draws) => (config,draws,map)

theorem PlacementAlgo.placeJobInOf_initTopo (placement : PlacementAlgo) (draws : Draws) :
    placement.placeJobInOf site gpu job (.initTopo site) draws =
      (placement.placeJobIn site gpu job draws).map fun (config,rest) =>
        (config,rest,.initTopo site) := by
  cases placement with
  | yarn fallback => exact YARNPlacement.placeJobInOf_initTopo fallback draws
  | random => rfl

namespace FitFirst

/-- `choose_job_to_execute_in` with the map that it hands from trial to trial. -/
def chooseJobToExecuteInOf (site : Site) (placement : PlacementAlgo) (c : Cluster) :
    List Job → SwitchMap → Draws → Option (Option Job × Draws × SwitchMap)
  | [],map,draws => some (none,draws,map)
  | job :: rest,map,draws =>
    if !c.started job then do
      let (config,draws,map) ← placement.placeJobInOf site c.gpu job map draws
      if config ≠ [] then return (some job,draws,map)
      else chooseJobToExecuteInOf site placement c rest map draws
    else chooseJobToExecuteInOf site placement c rest map draws

theorem chooseJobToExecuteInOf_initTopo (site : Site) (placement : PlacementAlgo) (c : Cluster)
    (jobs : List Job) (draws : Draws) :
    chooseJobToExecuteInOf site placement c jobs (.initTopo site) draws =
      (chooseJobToExecuteIn site placement c jobs draws).map fun (chosen,rest) =>
        (chosen,rest,.initTopo site) := by
  induction jobs generalizing draws with
  | nil => rfl
  | cons first later ih =>
    rw [chooseJobToExecuteInOf,chooseJobToExecuteIn]
    split
    · rw [PlacementAlgo.placeJobInOf_initTopo]
      cases placement.placeJobIn site c.gpu first draws with
      | none => rfl
      | some placed =>
        obtain ⟨config,others⟩ := placed
        by_cases empty : config = []
        · simpa [empty] using ih others
        · simp [empty]
    · exact ih draws

/-- The scheduler's placement of the chosen job has workers whatever the trials have sampled, and
the trials leave the cluster as it was. -/
structure Agrees (site : Site) (placement : PlacementAlgo) (c : Cluster) : Prop where
  returns : ∃ draws chosen, chooseJobToExecuteIn site placement c c.jobs draws = some (chosen,[])
  earliest : ∀ draws chosen rest,
    chooseJobToExecuteIn site placement c c.jobs draws = some (chosen,rest) →
    Earliest site placement c c.jobs chosen
  second : ∀ draws job rest,
    chooseJobToExecuteIn site placement c c.jobs draws = some (some job,rest) →
    (∃ later config, placement.placeJobIn site c.gpu job later = some (config,[])) ∧
    ∀ later config last, placement.placeJobIn site c.gpu job later = some (config,last) →
      config ≠ []
  unchanged : ∀ draws, chooseJobToExecuteInOf site placement c c.jobs (.initTopo site) draws =
    (chooseJobToExecuteIn site placement c c.jobs draws).map fun (chosen,rest) =>
      (chosen,rest,.initTopo site)
  round : ∀ draws order d, c.schedule site .fitFirst placement draws order = some d →
    (Earliest site placement c c.jobs none ∧ d = { c with scheduler := .waiting }) ∨
    ∃ job, Earliest site placement c c.jobs (some job) ∧ d = (c.startJob job order).loopHead

theorem Earliest.nonempty (earliest : Earliest site placement c jobs (some job))
    (placed : placement.placeJobIn site c.gpu job draws = some (config,rest)) : config ≠ [] := by
  obtain ⟨_,_,_,_,placeable,_⟩ := earliest
  exact placeable.nonempty placed

theorem fit_first_agrees (site : Site) (placement : PlacementAlgo) (c : Cluster) :
    Agrees site placement c where
  returns := choose_returns site placement c c.jobs
  earliest draws chosen rest result := choose_earliest result
  second draws job rest result := ⟨placement.exists_outcome site c.gpu job,
    fun later config last placed => (choose_earliest result).nonempty placed⟩
  unchanged := chooseJobToExecuteInOf_initTopo site placement c c.jobs
  round draws order d taken := by
    obtain ⟨⟨chosen,rest⟩,picked,taken⟩ := Option.bind_eq_some_iff.mp taken
    have earliest := choose_earliest picked
    cases chosen with
    | none =>
      cases taken
      exact Or.inl ⟨earliest,rfl⟩
    | some job =>
      right
      obtain ⟨⟨config,last⟩,placed,taken⟩ := Option.bind_eq_some_iff.mp taken
      dsimp only at taken
      rw [if_neg (earliest.nonempty placed)] at taken
      split at taken
      · cases taken
        exact ⟨job,earliest,rfl⟩
      · cases taken

end FitFirst
end CloudSim
