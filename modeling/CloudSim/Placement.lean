import CloudSim.Packet
import Mathlib.Data.List.Dedup
import Mathlib.Data.List.Count
import Mathlib.Data.List.Perm.Subperm

/-! The placement algorithms over the free GPUs of a cluster. Random sampling is resolved by a
list of outcomes, one for each call of `std::ranges::sample`. -/
namespace CloudSim

/-- The workers and ToRs that a topology builds. -/
structure Site where
  workers : List Nat
  switches : List Nat
  tor : Nat → Nat
  gpuCapacity : Nat → Nat
  workersDistinct : workers.Nodup
  covered : ∀ w ∈ workers, tor w ∈ switches
  capacityFits : ∀ w, gpuCapacity w < 2^32

structure Job where
  id : Nat
  gpu : Nat
  submitTime : Nat
  deriving DecidableEq, Repr

/-- The GPUs taken on each worker, keys in insertion order. -/
abbrev RunConfig := List (Nat × Nat)

/-- The outcomes of the calls of `std::ranges::sample` still to come. -/
abbrev Draws := List (List Nat)

namespace RunConfig

/-- `counter[id] += 1`. -/
def increment : RunConfig → Nat → RunConfig
  | [],id => [(id,1)]
  | (key,n) :: rest,id =>
    if key = id then (key,u32 (n + 1)) :: rest else (key,n) :: increment rest id

def tally (selected : List Nat) : RunConfig := selected.foldl increment []

def total (config : RunConfig) : Nat := (config.map Prod.snd).sum

def wids (config : RunConfig) : List Nat := config.map Prod.fst

end RunConfig

namespace Site

/-- `tor->machines`. -/
def machines (site : Site) (tor : Nat) : List Nat :=
  site.workers.filter fun w => site.tor w == tor

end Site

def gpuSlots (gpu : Nat → Nat) (ids : List Nat) : List Nat :=
  ids.flatMap fun w => List.replicate (gpu w) w

/-- A possible outcome of `std::ranges::sample(candidates, …, k, gen)`. -/
def Sampled (candidates : List Nat) (k : Nat) (selected : List Nat) : Prop :=
  selected.length = min k candidates.length ∧ List.Subperm selected candidates

instance (candidates : List Nat) (k : Nat) (selected : List Nat) :
    Decidable (Sampled candidates k selected) :=
  inferInstanceAs (Decidable (_ ∧ _))

def sample (candidates : List Nat) (k : Nat) : Draws → Option (List Nat × Draws)
  | [] => none
  | selected :: rest => if Sampled candidates k selected then some (selected,rest) else none

namespace YARNPlacement
variable (site : Site) (gpu : Nat → Nat) (job : Job)

/-- A worker that fits the whole job appears once for each of its free GPUs. -/
def workerCandidates : List Nat :=
  site.workers.flatMap fun w => if job.gpu ≤ gpu w then List.replicate (gpu w) w else []

def freeGpusInTor (tor : Nat) : Nat :=
  (site.machines tor).foldl (fun free w => u32 (free + gpu w)) 0

def torCandidates : List Nat :=
  site.switches.flatMap fun tor =>
    if job.gpu ≤ freeGpusInTor site gpu tor then List.replicate (freeGpusInTor site gpu tor) tor
    else []

def placeWithinTor (draws : Draws) : Option (RunConfig × Draws) := do
  let (chosen,draws) ← sample (torCandidates site gpu job) 1 draws
  let (selected,draws) ← sample (gpuSlots gpu (site.machines (chosen.headD 0))) job.gpu draws
  return (RunConfig.tally selected,draws)

def placeAnywhere (draws : Draws) : Option (RunConfig × Draws) :=
  if (gpuSlots gpu site.workers).length < job.gpu then some ([],draws)
  else do
    let (selected,draws) ← sample (gpuSlots gpu site.workers) job.gpu draws
    return (RunConfig.tally selected,draws)

def placeJobIn (useRandomWhenFail : Bool) (draws : Draws) : Option (RunConfig × Draws) :=
  if workerCandidates site gpu job ≠ [] then do
    let (selected,draws) ← sample (workerCandidates site gpu job) 1 draws
    return ([(selected.headD 0,job.gpu)],draws)
  else if torCandidates site gpu job ≠ [] then placeWithinTor site gpu job draws
  else if useRandomWhenFail then placeAnywhere site gpu job draws
  else some ([],draws)

end YARNPlacement

namespace RandomPlacement
variable (site : Site) (gpu : Nat → Nat) (job : Job)

def multiRacksPlacement (selected : List Nat) : Bool := 1 < (selected.map site.tor).dedup.length

def distributedPlacement (selected : List Nat) : Bool := 1 < selected.dedup.length

def availableMachines : List Nat := site.workers.filter fun w => 0 < gpu w

def torsWithAvailableMachines : List Nat := ((availableMachines site gpu).map site.tor).dedup

/-- The two nested `do … while` loops: either condition samples again. -/
def select (mustPlaceDistributed mustPlaceMultiRacks : Bool) :
    Draws → Option (List Nat × Draws)
  | [] => none
  | selected :: rest =>
    if Sampled (gpuSlots gpu site.workers) job.gpu selected then
      if mustPlaceDistributed && !distributedPlacement selected then
        select mustPlaceDistributed mustPlaceMultiRacks rest
      else if mustPlaceMultiRacks && !multiRacksPlacement site selected then
        select mustPlaceDistributed mustPlaceMultiRacks rest
      else some (selected,rest)
    else none

def placeJobIn (forceDistributed forceMultiRacks : Bool) (draws : Draws) :
    Option (RunConfig × Draws) :=
  if (gpuSlots gpu site.workers).length < job.gpu then some ([],draws)
  else do
    let (selected,draws) ← select site gpu job
      (forceDistributed && decide (1 < (availableMachines site gpu).length) &&
        decide (1 < job.gpu))
      (forceMultiRacks && decide (1 < (torsWithAvailableMachines site gpu).length) &&
        decide (1 < job.gpu)) draws
    return (RunConfig.tally selected,draws)

end RandomPlacement

/-- The placement algorithms of the cluster, with their flags. -/
inductive PlacementAlgo where
  | yarn (useRandomWhenFail : Bool)
  | random (forceDistributed forceMultiRacks : Bool)
  deriving DecidableEq, Repr

def PlacementAlgo.placeJobIn (site : Site) (gpu : Nat → Nat) (job : Job) (draws : Draws) :
    PlacementAlgo → Option (RunConfig × Draws)
  | .yarn useRandomWhenFail => YARNPlacement.placeJobIn site gpu job useRandomWhenFail draws
  | .random forceDistributed forceMultiRacks =>
    RandomPlacement.placeJobIn site gpu job forceDistributed forceMultiRacks draws

/-! What a placement grants: distinct workers, none beyond its free GPUs, and the job's GPUs
in all. -/

namespace RunConfig

def amount : RunConfig → Nat → Nat
  | [],_ => 0
  | (key,n) :: rest,id => if key = id then n else amount rest id

theorem mem_increment_wids (config : RunConfig) (id : Nat) :
    w ∈ (increment config id).wids ↔ w = id ∨ w ∈ config.wids := by
  induction config with
  | nil => simp [increment,wids]
  | cons entry rest ih =>
    simp only [wids] at ih
    by_cases same : entry.1 = id
    · simp [increment,wids,same]
    · simp only [increment,if_neg same,wids,List.map_cons,List.mem_cons,ih]
      tauto

theorem increment_distinct {config : RunConfig} (distinct : config.wids.Nodup) (id : Nat) :
    (increment config id).wids.Nodup := by
  induction config with
  | nil => simp [increment,wids]
  | cons entry rest ih =>
    obtain ⟨absent,distinct⟩ := List.nodup_cons.mp distinct
    by_cases same : entry.1 = id
    · simp only [increment,if_pos same]
      exact List.nodup_cons.mpr ⟨absent,distinct⟩
    · simp only [increment,if_neg same]
      refine List.nodup_cons.mpr ⟨fun member => ?_,ih distinct⟩
      rcases (mem_increment_wids rest id).mp member with here | there
      · exact same here
      · exact absent there

theorem amount_increment (config : RunConfig) (id w : Nat) :
    (increment config id).amount w =
      if w = id then u32 (config.amount id + 1) else config.amount w := by
  induction config with
  | nil => by_cases same : id = w <;> simp [increment,amount,same,eq_comm]; decide
  | cons entry rest ih =>
    by_cases here : entry.1 = id
    · by_cases same : w = id
      · simp [increment,amount,here,same]
      · simp [increment,amount,here,same,Ne.symm same]
    · by_cases same : entry.1 = w
      · simp [increment,amount,same,same ▸ here]
      · simp [increment,amount,here,same,ih]

theorem total_increment {config : RunConfig} {id : Nat} (fits : config.amount id + 1 < 2^32) :
    (increment config id).total = config.total + 1 := by
  induction config with
  | nil => simp [increment,total]
  | cons entry rest ih =>
    by_cases same : entry.1 = id
    · simp only [amount,if_pos same] at fits
      simp only [increment,if_pos same,total,List.map_cons,List.sum_cons,u32_of_lt fits]
      omega
    · simp only [amount,if_neg same] at fits
      have rest := ih fits
      simp only [increment,if_neg same,total,List.map_cons,List.sum_cons] at rest ⊢
      omega

theorem amount_of_mem {config : RunConfig} (distinct : config.wids.Nodup)
    (member : entry ∈ config) : config.amount entry.1 = entry.2 := by
  induction config with
  | nil => cases member
  | cons first rest ih =>
    obtain ⟨absent,distinct⟩ := List.nodup_cons.mp distinct
    rcases List.mem_cons.mp member with rfl | later
    · simp [amount]
    · have other : first.1 ≠ entry.1 := fun same =>
        absent (same ▸ List.mem_map_of_mem later)
      simp only [amount,if_neg other,ih distinct later]

theorem tally_snoc (selected : List Nat) (w : Nat) :
    tally (selected ++ [w]) = increment (tally selected) w := by simp [tally]

theorem tally_distinct (selected : List Nat) : (tally selected).wids.Nodup := by
  induction selected using List.reverseRecOn with
  | nil => exact List.nodup_nil
  | append_singleton rest w ih => simpa only [tally_snoc] using increment_distinct ih w

theorem amount_tally (selected : List Nat) (w : Nat) :
    (tally selected).amount w = u32 (selected.count w) := by
  induction selected using List.reverseRecOn with
  | nil => rfl
  | append_singleton rest id ih =>
    rw [tally_snoc,amount_increment]
    by_cases same : w = id
    · subst same
      simp [ih,u32]
    · simp [same,ih,Ne.symm same,List.count_append]

theorem total_tally {selected : List Nat} (fits : ∀ w, selected.count w < 2^32) :
    (tally selected).total = selected.length := by
  induction selected using List.reverseRecOn with
  | nil => rfl
  | append_singleton rest id ih =>
    have earlier (w : Nat) : rest.count w < 2^32 :=
      Nat.lt_of_le_of_lt (by simp [List.count_append]) (fits w)
    have here := fits id
    simp only [List.count_append,List.count_singleton_self] at here
    rw [tally_snoc,total_increment,ih earlier,List.length_append,List.length_singleton]
    rwa [amount_tally,u32_of_lt (earlier id)]

end RunConfig

/-- The workers of `config` are distinct and have the GPUs it takes from them, which are the
job's GPUs in all. -/
structure Granted (gpu : Nat → Nat) (job : Job) (config : RunConfig) : Prop where
  distinct : config.wids.Nodup
  available : ∀ entry ∈ config, entry.2 ≤ gpu entry.1
  total : config ≠ [] → config.total = job.gpu

theorem granted_nil (gpu : Nat → Nat) (job : Job) : Granted gpu job [] :=
  ⟨List.nodup_nil,by simp,fun nonempty => absurd rfl nonempty⟩

theorem count_gpuSlots (gpu : Nat → Nat) {ids : List Nat} (distinct : ids.Nodup) (w : Nat) :
    (gpuSlots gpu ids).count w ≤ gpu w := by
  induction ids with
  | nil => simp [gpuSlots]
  | cons head rest ih =>
    obtain ⟨absent,distinct⟩ := List.nodup_cons.mp distinct
    simp only [gpuSlots,List.flatMap_cons,List.count_append] at ih ⊢
    by_cases same : head = w
    · subst same
      have none : (rest.flatMap fun w => List.replicate (gpu w) w).count head = 0 := by
        apply List.count_eq_zero_of_not_mem
        simp only [List.mem_flatMap,List.mem_replicate]
        rintro ⟨v,inside,_,rfl⟩
        exact absent inside
      simp [none]
    · simpa [List.count_replicate,same] using ih distinct

theorem tally_granted {gpu : Nat → Nat} (small : ∀ w, gpu w < 2^32) {ids : List Nat}
    (distinct : ids.Nodup) {job : Job} {selected : List Nat}
    (sampled : Sampled (gpuSlots gpu ids) job.gpu selected)
    (enough : job.gpu ≤ (gpuSlots gpu ids).length) :
    Granted gpu job (RunConfig.tally selected) := by
  have counts (w : Nat) : selected.count w ≤ gpu w :=
    (sampled.2.count_le w).trans (count_gpuSlots gpu distinct w)
  have fits (w : Nat) : selected.count w < 2^32 := Nat.lt_of_le_of_lt (counts w) (small w)
  refine ⟨RunConfig.tally_distinct selected,fun entry member => ?_,fun _ => ?_⟩
  · rw [← RunConfig.amount_of_mem (RunConfig.tally_distinct selected) member,
      RunConfig.amount_tally,u32_of_lt (fits _)]
    exact counts _
  · rw [RunConfig.total_tally fits,sampled.1,Nat.min_eq_left enough]

theorem sample_sampled (result : sample candidates k draws = some (selected,rest)) :
    Sampled candidates k selected := by
  cases draws with
  | nil => cases result
  | cons first later =>
    simp only [sample] at result
    split at result
    · cases result; assumption
    · cases result

theorem sample_one (nonempty : candidates ≠ [])
    (result : sample candidates 1 draws = some (selected,rest)) :
    selected.headD 0 ∈ candidates := by
  obtain ⟨length,inside⟩ := sample_sampled result
  have one : 1 ≤ candidates.length := List.length_pos_of_ne_nil nonempty
  rw [Nat.min_eq_left one] at length
  obtain ⟨only,rfl⟩ := List.length_eq_one_iff.mp length
  exact inside.subset List.mem_cons_self

namespace YARNPlacement
variable {site : Site} {gpu : Nat → Nat} {job : Job}

theorem mem_workerCandidates (member : w ∈ workerCandidates site gpu job) :
    w ∈ site.workers ∧ job.gpu ≤ gpu w := by
  obtain ⟨v,inside,listed⟩ := List.mem_flatMap.mp member
  split at listed
  · rw [List.eq_of_mem_replicate listed]
    exact ⟨inside,‹_›⟩
  · cases listed

theorem mem_torCandidates (member : tor ∈ torCandidates site gpu job) :
    tor ∈ site.switches ∧ job.gpu ≤ freeGpusInTor site gpu tor := by
  obtain ⟨t,inside,listed⟩ := List.mem_flatMap.mp member
  split at listed
  · rw [List.eq_of_mem_replicate listed]
    exact ⟨inside,‹_›⟩
  · cases listed

/-- The sum may wrap, but never above the free GPUs. -/
theorem freeGpusInTor_le (tor : Nat) :
    freeGpusInTor site gpu tor ≤ (gpuSlots gpu (site.machines tor)).length := by
  have sums (ids : List Nat) (free : Nat) :
      ids.foldl (fun free w => u32 (free + gpu w)) free ≤ free + (gpuSlots gpu ids).length := by
    induction ids generalizing free with
    | nil => simp [gpuSlots]
    | cons head rest ih =>
      have step := ih (u32 (free + gpu head))
      have wrap : u32 (free + gpu head) ≤ free + gpu head := Nat.mod_le _ _
      simp only [gpuSlots,List.foldl_cons,List.flatMap_cons,List.length_append,
        List.length_replicate] at step ⊢
      omega
  simpa [freeGpusInTor] using sums (site.machines tor) 0

theorem placeWithinTor_granted (small : ∀ w, gpu w < 2^32)
    (nonempty : torCandidates site gpu job ≠ [])
    (placed : placeWithinTor site gpu job draws = some (config,rest)) :
    Granted gpu job config := by
  obtain ⟨⟨chosen,draws⟩,first,placed⟩ := Option.bind_eq_some_iff.mp placed
  obtain ⟨⟨selected,draws⟩,second,placed⟩ := Option.bind_eq_some_iff.mp placed
  cases placed
  have enough := (mem_torCandidates (sample_one nonempty first)).2
  exact tally_granted small (site.workersDistinct.filter _) (sample_sampled second)
    (enough.trans (freeGpusInTor_le _))

theorem placeAnywhere_granted (small : ∀ w, gpu w < 2^32)
    (placed : placeAnywhere site gpu job draws = some (config,rest)) :
    Granted gpu job config := by
  simp only [placeAnywhere] at placed
  split at placed
  · cases placed; exact granted_nil gpu job
  · rename_i enough
    obtain ⟨⟨selected,draws⟩,drawn,placed⟩ := Option.bind_eq_some_iff.mp placed
    cases placed
    exact tally_granted small site.workersDistinct (sample_sampled drawn) (Nat.not_lt.mp enough)

theorem placeJobIn_granted (small : ∀ w, gpu w < 2^32)
    (placed : placeJobIn site gpu job fallback draws = some (config,rest)) :
    Granted gpu job config := by
  simp only [placeJobIn] at placed
  split at placed
  case isTrue single =>
    obtain ⟨⟨selected,draws⟩,drawn,placed⟩ := Option.bind_eq_some_iff.mp placed
    cases placed
    have fits := (mem_workerCandidates (sample_one single drawn)).2
    exact ⟨List.nodup_singleton _,by simpa using fits,fun _ => by simp [RunConfig.total]⟩
  case isFalse =>
    split at placed
    case isTrue within => exact placeWithinTor_granted small within placed
    case isFalse =>
      split at placed
      · exact placeAnywhere_granted small placed
      · cases placed; exact granted_nil gpu job

end YARNPlacement

namespace RandomPlacement
variable {site : Site} {gpu : Nat → Nat} {job : Job}

/-- Whatever the loops reject, they end with an outcome of one more sampling. -/
theorem select_sampled {distributed multiRacks : Bool} {draws : Draws}
    (selection : select site gpu job distributed multiRacks draws = some (selected,rest)) :
    Sampled (gpuSlots gpu site.workers) job.gpu selected := by
  induction draws with
  | nil => cases selection
  | cons first later ih =>
    simp only [select] at selection
    split at selection
    · split at selection
      · exact ih selection
      · split at selection
        · exact ih selection
        · cases selection; assumption
    · cases selection

theorem placeJobIn_granted (small : ∀ w, gpu w < 2^32)
    (placed : placeJobIn site gpu job forceDistributed forceMultiRacks draws =
      some (config,rest)) : Granted gpu job config := by
  simp only [placeJobIn] at placed
  split at placed
  · cases placed; exact granted_nil gpu job
  · rename_i enough
    obtain ⟨⟨selected,draws⟩,drawn,placed⟩ := Option.bind_eq_some_iff.mp placed
    cases placed
    exact tally_granted small site.workersDistinct (select_sampled drawn) (Nat.not_lt.mp enough)

end RandomPlacement

theorem PlacementAlgo.placeJobIn_granted {site : Site} {gpu : Nat → Nat} {job : Job}
    (algo : PlacementAlgo) (small : ∀ w, gpu w < 2^32)
    (placed : algo.placeJobIn site gpu job draws = some (config,rest)) :
    Granted gpu job config := by
  cases algo with
  | yarn => exact YARNPlacement.placeJobIn_granted small placed
  | random => exact RandomPlacement.placeJobIn_granted small placed

end CloudSim
