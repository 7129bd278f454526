import CloudSim.Admission
import Mathlib.Algebra.BigOperators.Group.List.Basic
import Mathlib.Data.Finset.Card

/-! Whether a placement exists when the free GPUs allow one, and where it goes. -/
namespace CloudSim

/-- The free GPUs of some workers. -/
def freeGpus (gpu : Nat → Nat) (ids : List Nat) : Nat := (ids.map gpu).sum

@[simp] theorem freeGpus_cons (gpu : Nat → Nat) (w : Nat) (ids : List Nat) :
    freeGpus gpu (w :: ids) = gpu w + freeGpus gpu ids := by simp [freeGpus]

theorem freeGpus_filter_le (gpu : Nat → Nat) (p : Nat → Bool) (ids : List Nat) :
    freeGpus gpu (ids.filter p) ≤ freeGpus gpu ids := by
  induction ids with
  | nil => exact Nat.le_refl _
  | cons head rest ih =>
    by_cases kept : p head = true
    · rw [List.filter_cons_of_pos kept,freeGpus_cons,freeGpus_cons]
      omega
    · rw [List.filter_cons_of_neg kept,freeGpus_cons]
      omega

theorem exists_free {gpu : Nat → Nat} {ids : List Nat} (some : 0 < freeGpus gpu ids) :
    ∃ w ∈ ids, 0 < gpu w := by
  induction ids with
  | nil => cases some
  | cons head rest ih =>
    rw [freeGpus_cons] at some
    rcases Nat.eq_zero_or_pos (gpu head) with none | free
    · obtain ⟨w,inside,free⟩ := ih (by omega)
      exact ⟨w,List.mem_cons_of_mem _ inside,free⟩
    · exact ⟨head,List.mem_cons_self,free⟩

section slots
variable {gpu : Nat → Nat} {ids : List Nat}

theorem gpuSlots_length : (gpuSlots gpu ids).length = freeGpus gpu ids := by
  simp [gpuSlots,freeGpus,List.length_flatMap]

theorem mem_gpuSlots : w ∈ gpuSlots gpu ids ↔ w ∈ ids ∧ 0 < gpu w := by
  simp only [gpuSlots,List.mem_flatMap,List.mem_replicate]
  constructor
  · rintro ⟨v,inside,some,rfl⟩
    exact ⟨inside,Nat.pos_of_ne_zero some⟩
  · rintro ⟨inside,free⟩
    exact ⟨w,inside,free.ne',rfl⟩

end slots

theorem exists_sampled {candidates part : List Nat} (inside : part.Subperm candidates)
    (fits : part.length ≤ k) (enough : k ≤ candidates.length) :
    ∃ selected, Sampled candidates k selected ∧ part ⊆ selected := by
  obtain ⟨ordered,perm,sublist⟩ := inside
  obtain ⟨others,split⟩ := sublist.exists_perm_append
  replace split := split.trans (perm.append_right others)
  have lengths := split.length_eq
  rw [List.length_append] at lengths
  refine ⟨part ++ others.take (k - part.length),⟨?_,?_⟩,List.subset_append_left _ _⟩
  · rw [List.length_append,List.length_take,Nat.min_eq_left enough]
    omega
  · apply List.Subperm.trans _ split.symm.subperm
    exact ((List.take_sublist _ others).append_left part).subperm

theorem exists_sampled_pair {gpu : Nat → Nat} {ids : List Nat} (first : v ∈ ids) (second : w ∈ ids)
    (free : 0 < gpu v) (free' : 0 < gpu w) (apart : v ≠ w) (several : 2 ≤ k)
    (enough : k ≤ (gpuSlots gpu ids).length) :
    ∃ selected, Sampled (gpuSlots gpu ids) k selected ∧ v ∈ selected ∧ w ∈ selected := by
  have pair : [v,w].Nodup := by simp [apart]
  have inside : [v,w] ⊆ gpuSlots gpu ids := by
    intro a member
    rcases List.mem_pair.mp member with rfl | rfl
    · exact mem_gpuSlots.mpr ⟨first,free⟩
    · exact mem_gpuSlots.mpr ⟨second,free'⟩
  obtain ⟨selected,sampled,both⟩ := exists_sampled (pair.subperm inside) several enough
  exact ⟨selected,sampled,both (by simp),both (by simp)⟩

theorem Sampled.mem {candidates selected : List Nat} (sampled : Sampled candidates k selected)
    (member : w ∈ selected) : w ∈ candidates := sampled.2.subset member

namespace RunConfig

theorem mem_tally_wids {selected : List Nat} : w ∈ (tally selected).wids ↔ w ∈ selected := by
  induction selected using List.reverseRecOn with
  | nil => rfl
  | append_singleton rest id ih =>
    rw [tally_snoc,mem_increment_wids,ih,List.mem_append,List.mem_singleton,or_comm]

end RunConfig

/-- The allocations are the job's GPUs in all, and each worker of the list gives between 1 and its
free GPUs. -/
structure Spread (gpu : Nat → Nat) (ids : List Nat) (job : Job) (config : RunConfig) : Prop where
  distinct : config.wids.Nodup
  within : ∀ entry ∈ config, entry.1 ∈ ids ∧ 1 ≤ entry.2 ∧ entry.2 ≤ gpu entry.1
  total : config.total = job.gpu

theorem tally_spread {gpu : Nat → Nat} (small : ∀ w, gpu w < 2^32) {ids : List Nat}
    (distinct : ids.Nodup) {job : Job} {selected : List Nat}
    (sampled : Sampled (gpuSlots gpu ids) job.gpu selected)
    (enough : job.gpu ≤ (gpuSlots gpu ids).length) :
    Spread gpu ids job (RunConfig.tally selected) := by
  have granted := tally_granted small distinct sampled enough
  have unique := RunConfig.tally_distinct selected
  have fits (w : Nat) : selected.count w < 2^32 :=
    Nat.lt_of_le_of_lt ((sampled.2.count_le w).trans (count_gpuSlots gpu distinct w)) (small w)
  refine ⟨unique,fun entry member => ?_,?_⟩
  · have chosen := RunConfig.mem_tally_wids.mp (List.mem_map_of_mem member)
    refine ⟨(mem_gpuSlots.mp (sampled.mem chosen)).1,?_,granted.available entry member⟩
    rw [← RunConfig.amount_of_mem unique member,RunConfig.amount_tally,u32_of_lt (fits _)]
    exact List.count_pos_iff.mpr chosen
  · rw [RunConfig.total_tally fits,sampled.1,Nat.min_eq_left enough]

namespace RandomPlacement
variable (site : Site) (gpu : Nat → Nat) (job : Job)

def mustPlaceDistributed (forceDistributed : Bool) : Bool :=
  forceDistributed && decide (1 < (availableMachines site gpu).length) && decide (1 < job.gpu)

def mustPlaceMultiRacks (forceMultiRacks : Bool) : Bool :=
  forceMultiRacks && decide (1 < (torsWithAvailableMachines site gpu).length) &&
    decide (1 < job.gpu)

def Accepted (distributed multiRacks : Bool) (selected : List Nat) : Prop :=
  (distributed = true → distributedPlacement selected = true) ∧
    (multiRacks = true → multiRacksPlacement site selected = true)

variable {site gpu job}

theorem one_lt_dedup_length {xs : List Nat} : 1 < xs.dedup.length ↔ ∃ v ∈ xs, ∃ w ∈ xs, v ≠ w := by
  rw [← List.card_toFinset,Finset.one_lt_card]
  simp only [List.mem_toFinset]

theorem distributedPlacement_iff {selected : List Nat} :
    distributedPlacement selected = true ↔ ∃ v ∈ selected, ∃ w ∈ selected, v ≠ w := by
  rw [distributedPlacement,decide_eq_true_eq,one_lt_dedup_length]

theorem multiRacksPlacement_iff {selected : List Nat} :
    multiRacksPlacement site selected = true ↔
      ∃ v ∈ selected, ∃ w ∈ selected, site.tor v ≠ site.tor w := by
  rw [multiRacksPlacement,decide_eq_true_eq,one_lt_dedup_length]
  simp only [List.mem_map]
  constructor
  · rintro ⟨_,⟨v,first,rfl⟩,_,⟨w,second,rfl⟩,apart⟩
    exact ⟨v,first,w,second,apart⟩
  · rintro ⟨v,first,w,second,apart⟩
    exact ⟨_,⟨v,first,rfl⟩,_,⟨w,second,rfl⟩,apart⟩

theorem mem_availableMachines : w ∈ availableMachines site gpu ↔ w ∈ site.workers ∧ 0 < gpu w := by
  simp [availableMachines]

/-- The count of available machines, taken before sampling, tells whether there are two. -/
theorem mustPlaceDistributed_iff {force : Bool} :
    mustPlaceDistributed site gpu job force = true ↔ force = true ∧ 1 < job.gpu ∧
      ∃ v ∈ site.workers, ∃ w ∈ site.workers, v ≠ w ∧ 0 < gpu v ∧ 0 < gpu w := by
  have distinct : (availableMachines site gpu).dedup = availableMachines site gpu :=
    List.dedup_eq_self.mpr (site.workersDistinct.filter _)
  have count : 1 < (availableMachines site gpu).length ↔
      ∃ v ∈ availableMachines site gpu, ∃ w ∈ availableMachines site gpu, v ≠ w := by
    rw [← distinct,one_lt_dedup_length,distinct]
  simp only [mustPlaceDistributed,Bool.and_eq_true,decide_eq_true_eq,count,mem_availableMachines]
  constructor
  · rintro ⟨⟨forced,v,⟨first,free⟩,w,⟨second,free'⟩,apart⟩,several⟩
    exact ⟨forced,several,v,first,w,second,apart,free,free'⟩
  · rintro ⟨forced,several,v,first,w,second,apart,free,free'⟩
    exact ⟨⟨forced,v,⟨first,free⟩,w,⟨second,free'⟩,apart⟩,several⟩

theorem mustPlaceMultiRacks_iff {force : Bool} :
    mustPlaceMultiRacks site gpu job force = true ↔ force = true ∧ 1 < job.gpu ∧
      ∃ v ∈ site.workers, ∃ w ∈ site.workers, site.tor v ≠ site.tor w ∧ 0 < gpu v ∧ 0 < gpu w := by
  have count : 1 < (torsWithAvailableMachines site gpu).length ↔
      ∃ s ∈ (availableMachines site gpu).map site.tor,
        ∃ t ∈ (availableMachines site gpu).map site.tor, s ≠ t := one_lt_dedup_length
  simp only [mustPlaceMultiRacks,Bool.and_eq_true,decide_eq_true_eq,count,List.mem_map,
    mem_availableMachines]
  constructor
  · rintro ⟨⟨forced,_,⟨v,⟨first,free⟩,rfl⟩,_,⟨w,⟨second,free'⟩,rfl⟩,apart⟩,several⟩
    exact ⟨forced,several,v,first,w,second,apart,free,free'⟩
  · rintro ⟨forced,several,v,first,w,second,apart,free,free'⟩
    exact ⟨⟨forced,_,⟨v,⟨first,free⟩,rfl⟩,_,⟨w,⟨second,free'⟩,rfl⟩,apart⟩,several⟩

/-- Two free workers of different racks pass both guards, so one pair serves for both loops. -/
theorem exists_accepted (force forceRacks : Bool)
    (enough : job.gpu ≤ (gpuSlots gpu site.workers).length) :
    ∃ selected, Sampled (gpuSlots gpu site.workers) job.gpu selected ∧
      Accepted site (mustPlaceDistributed site gpu job force)
        (mustPlaceMultiRacks site gpu job forceRacks) selected := by
  by_cases racks : mustPlaceMultiRacks site gpu job forceRacks = true
  · obtain ⟨_,several,v,first,w,second,apart,free,free'⟩ := mustPlaceMultiRacks_iff.mp racks
    have differ : v ≠ w := fun same => apart (congrArg site.tor same)
    obtain ⟨selected,sampled,here,there⟩ :=
      exists_sampled_pair first second free free' differ several enough
    exact ⟨selected,sampled,fun _ => distributedPlacement_iff.mpr ⟨v,here,w,there,differ⟩,
      fun _ => multiRacksPlacement_iff.mpr ⟨v,here,w,there,apart⟩⟩
  · by_cases distributed : mustPlaceDistributed site gpu job force = true
    · obtain ⟨_,several,v,first,w,second,apart,free,free'⟩ :=
        mustPlaceDistributed_iff.mp distributed
      obtain ⟨selected,sampled,here,there⟩ :=
        exists_sampled_pair first second free free' apart several enough
      exact ⟨selected,sampled,fun _ => distributedPlacement_iff.mpr ⟨v,here,w,there,apart⟩,
        fun must => absurd must racks⟩
    · obtain ⟨selected,sampled,_⟩ := exists_sampled (List.nil_subperm) (Nat.zero_le _) enough
      exact ⟨selected,sampled,fun must => absurd must distributed,fun must => absurd must racks⟩

theorem select_accepted {distributed multiRacks : Bool} {draws : Draws}
    (selection : select site gpu job distributed multiRacks draws = some (selected,rest)) :
    Accepted site distributed multiRacks selected := by
  induction draws with
  | nil => cases selection
  | cons first later ih =>
    simp only [select] at selection
    split at selection
    · split at selection
      · exact ih selection
      · rename_i spread
        split at selection
        · exact ih selection
        · rename_i racks
          cases selection
          exact ⟨by simpa using spread,by simpa using racks⟩
    · cases selection

theorem select_append {distributed multiRacks : Bool} {rejected : Draws} {selected : List Nat}
    (drawn : ∀ outcome ∈ rejected, Sampled (gpuSlots gpu site.workers) job.gpu outcome)
    (running : select site gpu job distributed multiRacks rejected = none)
    (sampled : Sampled (gpuSlots gpu site.workers) job.gpu selected)
    (accepted : Accepted site distributed multiRacks selected) :
    select site gpu job distributed multiRacks (rejected ++ [selected]) = some (selected,[]) := by
  induction rejected with
  | nil =>
    have spread : ¬(distributed && !distributedPlacement selected) = true := by
      simpa using accepted.1
    have racks : ¬(multiRacks && !multiRacksPlacement site selected) = true := by
      simpa using accepted.2
    rw [List.nil_append,select,if_pos sampled,if_neg spread,if_neg racks]
  | cons first later ih =>
    have tail := ih fun outcome member => drawn outcome (List.mem_cons_of_mem _ member)
    rw [select,if_pos (drawn first List.mem_cons_self)] at running
    rw [List.cons_append,select,if_pos (drawn first List.mem_cons_self)]
    split at running
    · rename_i again
      rw [if_pos again]
      exact tail running
    · rename_i spread
      rw [if_neg spread]
      split at running
      · rename_i again
        rw [if_pos again]
        exact tail running
      · cases running

theorem placeJobIn_eq (draws : Draws) (force forceRacks : Bool)
    (enough : job.gpu ≤ freeGpus gpu site.workers) :
    placeJobIn site gpu job force forceRacks draws =
      (select site gpu job (mustPlaceDistributed site gpu job force)
        (mustPlaceMultiRacks site gpu job forceRacks) draws).map
          fun (selected,rest) => (RunConfig.tally selected,rest) := by
  rw [← gpuSlots_length] at enough
  rw [placeJobIn,if_neg (Nat.not_lt.mpr enough)]
  exact Option.map_eq_bind.symm

theorem placed_iff {draws : Draws} {force forceRacks : Bool}
    (enough : job.gpu ≤ freeGpus gpu site.workers) :
    placeJobIn site gpu job force forceRacks draws = some (config,rest) ↔ ∃ selected,
      select site gpu job (mustPlaceDistributed site gpu job force)
        (mustPlaceMultiRacks site gpu job forceRacks) draws = some (selected,rest) ∧
      RunConfig.tally selected = config := by
  rw [placeJobIn_eq draws force forceRacks enough,Option.map_eq_some_iff]
  constructor
  · rintro ⟨⟨selected,left⟩,found,same⟩
    obtain ⟨rfl,rfl⟩ := Prod.mk.inj same
    exact ⟨selected,found,rfl⟩
  · rintro ⟨selected,found,rfl⟩
    exact ⟨(selected,rest),found,rfl⟩

/-- The loops of `place_job_in` can always end, and what they end with is a placement as the flags
ask for. -/
structure Sound (site : Site) (gpu : Nat → Nat) (job : Job) (force forceRacks : Bool) : Prop where
  satisfiable : job.gpu ≤ freeGpus gpu site.workers → ∃ selected,
    Sampled (gpuSlots gpu site.workers) job.gpu selected ∧
    Accepted site (mustPlaceDistributed site gpu job force)
      (mustPlaceMultiRacks site gpu job forceRacks) selected ∧
    ∀ rejected, (∀ outcome ∈ rejected, Sampled (gpuSlots gpu site.workers) job.gpu outcome) →
      placeJobIn site gpu job force forceRacks rejected = none →
      placeJobIn site gpu job force forceRacks (rejected ++ [selected]) =
        some (RunConfig.tally selected,[])
  spread : ∀ draws config rest, placeJobIn site gpu job force forceRacks draws =
    some (config,rest) → job.gpu ≤ freeGpus gpu site.workers → Spread gpu site.workers job config
  distributed : ∀ draws config rest, placeJobIn site gpu job force forceRacks draws =
    some (config,rest) → job.gpu ≤ freeGpus gpu site.workers → force = true → 1 < job.gpu →
    (∃ v ∈ site.workers, ∃ w ∈ site.workers, v ≠ w ∧ 0 < gpu v ∧ 0 < gpu w) →
    ∃ v ∈ config.wids, ∃ w ∈ config.wids, v ≠ w
  multiRacks : ∀ draws config rest, placeJobIn site gpu job force forceRacks draws =
    some (config,rest) → job.gpu ≤ freeGpus gpu site.workers → forceRacks = true → 1 < job.gpu →
    (∃ v ∈ site.workers, ∃ w ∈ site.workers, site.tor v ≠ site.tor w ∧ 0 < gpu v ∧ 0 < gpu w) →
    ∃ v ∈ config.wids, ∃ w ∈ config.wids, site.tor v ≠ site.tor w
  empty : ∀ draws config rest, placeJobIn site gpu job force forceRacks draws =
    some (config,rest) → 1 ≤ job.gpu → (config = [] ↔ freeGpus gpu site.workers < job.gpu)

/-- Neither loop is condemned to run forever, and every way out of them is a right placement. -/
theorem random_placement_sound (site : Site) (gpu : Nat → Nat) (job : Job) (force forceRacks : Bool)
    (small : ∀ w, gpu w < 2^32) : Sound site gpu job force forceRacks where
  satisfiable enough := by
    have slots : job.gpu ≤ (gpuSlots gpu site.workers).length := by rwa [gpuSlots_length]
    obtain ⟨selected,sampled,accepted⟩ := exists_accepted force forceRacks slots
    refine ⟨selected,sampled,accepted,fun rejected drawn running => ?_⟩
    rw [placeJobIn_eq _ _ _ enough,Option.map_eq_none_iff] at running
    rw [placeJobIn_eq _ _ _ enough,select_append drawn running sampled accepted]
    rfl
  spread draws config rest placed enough := by
    obtain ⟨selected,found,rfl⟩ := (placed_iff enough).mp placed
    rw [← gpuSlots_length] at enough
    exact tally_spread small site.workersDistinct (select_sampled found) enough
  distributed draws config rest placed enough forced several two := by
    obtain ⟨selected,found,rfl⟩ := (placed_iff enough).mp placed
    have must := mustPlaceDistributed_iff.mpr ⟨forced,several,two⟩
    obtain ⟨v,first,w,second,apart⟩ :=
      distributedPlacement_iff.mp ((select_accepted found).1 must)
    exact ⟨v,RunConfig.mem_tally_wids.mpr first,w,RunConfig.mem_tally_wids.mpr second,apart⟩
  multiRacks draws config rest placed enough forced several two := by
    obtain ⟨selected,found,rfl⟩ := (placed_iff enough).mp placed
    have must := mustPlaceMultiRacks_iff.mpr ⟨forced,several,two⟩
    obtain ⟨v,first,w,second,apart⟩ :=
      multiRacksPlacement_iff.mp ((select_accepted found).2 must)
    exact ⟨v,RunConfig.mem_tally_wids.mpr first,w,RunConfig.mem_tally_wids.mpr second,apart⟩
  empty draws config rest placed positive := by
    rcases Nat.lt_or_ge (freeGpus gpu site.workers) job.gpu with few | enough
    · refine iff_of_true ?_ few
      rw [← gpuSlots_length] at few
      rw [placeJobIn,if_pos few] at placed
      exact (Prod.mk.inj (Option.some.inj placed)).1.symm
    · refine iff_of_false ?_ (Nat.not_lt.mpr enough)
      obtain ⟨selected,found,rfl⟩ := (placed_iff enough).mp placed
      rw [← gpuSlots_length] at enough
      exact RunConfig.tally_ne_nil.mpr ((select_sampled found).ne_nil positive enough)

/-- The three GPUs that a job needs are free on one worker, and it must use both racks. -/
theorem random_placement_sound_racks :
    Sound Cluster.twoRacks (fun w => w % 4) ⟨0,3,0⟩ true true :=
  random_placement_sound Cluster.twoRacks _ ⟨0,3,0⟩ true true
    fun w => Nat.lt_trans (Nat.mod_lt w (by decide)) (by decide)

end RandomPlacement

namespace YARNPlacement
variable (site : Site) (gpu : Nat → Nat) (job : Job)

/-- The policy: one worker, else workers of one ToR, else any workers, else none. -/
def Policy (useRandomWhenFail : Bool) (config : RunConfig) : Prop :=
  if ∃ w ∈ site.workers, job.gpu ≤ gpu w then
    ∃ w ∈ site.workers, job.gpu ≤ gpu w ∧ config = [(w,job.gpu)]
  else if ∃ tor ∈ site.switches, job.gpu ≤ freeGpus gpu (site.machines tor) then
    ∃ tor ∈ site.switches, job.gpu ≤ freeGpus gpu (site.machines tor) ∧
      Spread gpu (site.machines tor) job config
  else if useRandomWhenFail = true ∧ job.gpu ≤ freeGpus gpu site.workers then
    Spread gpu site.workers job config
  else config = []

def Infeasible (useRandomWhenFail : Bool) : Prop :=
  (∀ w ∈ site.workers, gpu w < job.gpu) ∧
    (∀ tor ∈ site.switches, freeGpus gpu (site.machines tor) < job.gpu) ∧
    (useRandomWhenFail = true → freeGpus gpu site.workers < job.gpu)

/-- Every outcome of the sampling keeps the policy, and every spread over the cluster is possible
where the policy allows any. -/
structure KeepsPolicy (useRandomWhenFail : Bool) : Prop where
  outcome : ∃ draws config, placeJobIn site gpu job useRandomWhenFail draws = some (config,[])
  policy : ∀ draws config rest, placeJobIn site gpu job useRandomWhenFail draws =
    some (config,rest) → Policy site gpu job useRandomWhenFail config
  arbitrary : (∀ w ∈ site.workers, gpu w < job.gpu) →
    (∀ tor ∈ site.switches, freeGpus gpu (site.machines tor) < job.gpu) →
    useRandomWhenFail = true → ∀ selected, job.gpu ≤ freeGpus gpu site.workers →
    Sampled (gpuSlots gpu site.workers) job.gpu selected →
    placeJobIn site gpu job useRandomWhenFail [selected] = some (RunConfig.tally selected,[])
  spread : ∀ draws config rest, placeJobIn site gpu job useRandomWhenFail draws =
    some (config,rest) → config ≠ [] → Spread gpu site.workers job config
  empty : ∀ draws rest, placeJobIn site gpu job useRandomWhenFail draws = some ([],rest) →
    Infeasible site gpu job useRandomWhenFail

/-- A worker fits the job, or no ToR does, or the free GPUs of one that does are not cut below the
job's by the 32-bit sum, or there is no other ToR that the fallback could use. -/
def TorsCounted (useRandomWhenFail : Bool) : Prop :=
  (∃ w ∈ site.workers, job.gpu ≤ gpu w) ∨
  (∀ tor ∈ site.switches, freeGpus gpu (site.machines tor) < job.gpu) ∨
  (∃ tor ∈ site.switches, job.gpu ≤ u32 (freeGpus gpu (site.machines tor))) ∨
  useRandomWhenFail = true ∧ ∀ v ∈ site.workers, ∀ w ∈ site.workers,
    0 < gpu v → 0 < gpu w → site.tor v = site.tor w

variable {site gpu job}

theorem freeGpusInTor_eq (tor : Nat) :
    freeGpusInTor site gpu tor = u32 (freeGpus gpu (site.machines tor)) := by
  have sums (ids : List Nat) (free : Nat) :
      ids.foldl (fun free w => u32 (free + gpu w)) (u32 free) = u32 (free + freeGpus gpu ids) := by
    induction ids generalizing free with
    | nil => simp [freeGpus]
    | cons head rest ih =>
      have cut : u32 (u32 free + gpu head) = u32 (free + gpu head) := Nat.mod_add_mod _ _ _
      rw [List.foldl_cons,cut,ih,freeGpus_cons,Nat.add_assoc]
  have total := sums (site.machines tor) 0
  rwa [Nat.zero_add] at total

theorem mem_machines : w ∈ site.machines tor ↔ w ∈ site.workers ∧ site.tor w = tor := by
  simp [Site.machines]

theorem workerCandidates_ne_nil (positive : 1 ≤ job.gpu) :
    workerCandidates site gpu job ≠ [] ↔ ∃ w ∈ site.workers, job.gpu ≤ gpu w := by
  constructor
  · intro nonempty
    obtain ⟨w,member⟩ := List.exists_mem_of_ne_nil _ nonempty
    exact ⟨w,mem_workerCandidates member⟩
  · rintro ⟨w,inside,fits⟩
    apply List.ne_nil_of_mem (a := w)
    refine List.mem_flatMap.mpr ⟨w,inside,?_⟩
    rw [if_pos fits]
    exact List.mem_replicate.mpr ⟨by omega,rfl⟩

theorem torCandidates_ne_nil (positive : 1 ≤ job.gpu) :
    torCandidates site gpu job ≠ [] ↔
      ∃ tor ∈ site.switches, job.gpu ≤ u32 (freeGpus gpu (site.machines tor)) := by
  constructor
  · intro nonempty
    obtain ⟨tor,member⟩ := List.exists_mem_of_ne_nil _ nonempty
    obtain ⟨inside,fits⟩ := mem_torCandidates member
    have sum : freeGpusInTor site gpu tor = _ := freeGpusInTor_eq tor
    exact ⟨tor,inside,sum ▸ fits⟩
  · rintro ⟨tor,inside,fits⟩
    rw [← freeGpusInTor_eq] at fits
    apply List.ne_nil_of_mem (a := tor)
    refine List.mem_flatMap.mpr ⟨tor,inside,?_⟩
    rw [if_pos fits]
    exact List.mem_replicate.mpr ⟨by omega,rfl⟩

theorem Spread.ne_nil {ids : List Nat} (spread : Spread gpu ids job config)
    (positive : 1 ≤ job.gpu) : config ≠ [] := by
  rintro rfl
  have total := spread.total
  rw [RunConfig.total,List.map_nil,List.sum_nil] at total
  omega

theorem Spread.of_machines (spread : Spread gpu (site.machines tor) job config) :
    Spread gpu site.workers job config :=
  ⟨spread.distinct,fun entry member =>
    ⟨(mem_machines.mp (spread.within entry member).1).1,(spread.within entry member).2⟩,
    spread.total⟩

theorem placed_cases (small : ∀ w, gpu w < 2^32)
    (placed : placeJobIn site gpu job fallback draws = some (config,rest)) :
    (∃ w ∈ site.workers, job.gpu ≤ gpu w ∧ config = [(w,job.gpu)]) ∨
    workerCandidates site gpu job = [] ∧
      ((∃ tor ∈ site.switches, job.gpu ≤ u32 (freeGpus gpu (site.machines tor)) ∧
        Spread gpu (site.machines tor) job config) ∨
      torCandidates site gpu job = [] ∧
        (fallback = true ∧ job.gpu ≤ freeGpus gpu site.workers ∧
            Spread gpu site.workers job config ∨
          (fallback = true → freeGpus gpu site.workers < job.gpu) ∧ config = [])) := by
  unfold placeJobIn at placed
  split at placed
  case isTrue single =>
    obtain ⟨⟨selected,draws⟩,drawn,placed⟩ := Option.bind_eq_some_iff.mp placed
    cases placed
    obtain ⟨inside,fits⟩ := mem_workerCandidates (sample_one single drawn)
    exact Or.inl ⟨_,inside,fits,rfl⟩
  case isFalse single =>
    refine Or.inr ⟨not_not.mp single,?_⟩
    split at placed
    case isTrue within =>
      obtain ⟨⟨chosen,draws⟩,first,placed⟩ := Option.bind_eq_some_iff.mp placed
      obtain ⟨⟨selected,draws⟩,second,placed⟩ := Option.bind_eq_some_iff.mp placed
      cases placed
      obtain ⟨inside,fits⟩ := mem_torCandidates (sample_one within first)
      have spread := tally_spread small (site.workersDistinct.filter _) (sample_sampled second)
        (fits.trans (freeGpusInTor_le _))
      rw [freeGpusInTor_eq] at fits
      exact Or.inl ⟨_,inside,fits,spread⟩
    case isFalse within =>
      refine Or.inr ⟨not_not.mp within,?_⟩
      split at placed
      case isTrue random =>
        unfold placeAnywhere at placed
        rw [gpuSlots_length] at placed
        split at placed
        case isTrue few =>
          cases placed
          exact Or.inr ⟨fun _ => few,rfl⟩
        case isFalse enough =>
          obtain ⟨⟨selected,draws⟩,drawn,placed⟩ := Option.bind_eq_some_iff.mp placed
          cases placed
          have enough := Nat.not_lt.mp enough
          refine Or.inl ⟨random,enough,tally_spread small site.workersDistinct
            (sample_sampled drawn) ?_⟩
          rwa [gpuSlots_length]
      case isFalse never =>
        cases placed
        exact Or.inr ⟨fun random => absurd random never,rfl⟩

theorem placed_spread (small : ∀ w, gpu w < 2^32) (positive : 1 ≤ job.gpu)
    (placed : placeJobIn site gpu job fallback draws = some (config,rest))
    (nonempty : config ≠ []) : Spread gpu site.workers job config := by
  rcases placed_cases small placed with
    ⟨w,inside,fits,rfl⟩ | ⟨_,⟨tor,_,_,spread⟩ | ⟨_,⟨_,_,spread⟩ | ⟨_,empty⟩⟩⟩
  · exact ⟨List.nodup_singleton _,by simpa using ⟨inside,positive,fits⟩,by simp [RunConfig.total]⟩
  · exact Spread.of_machines spread
  · exact spread
  · exact absurd empty nonempty

/-- Where no worker and no ToR fits, any free GPUs can be drawn. -/
theorem placed_anywhere (single : workerCandidates site gpu job = [])
    (within : torCandidates site gpu job = [])
    (enough : job.gpu ≤ freeGpus gpu site.workers) {selected : List Nat}
    (sampled : Sampled (gpuSlots gpu site.workers) job.gpu selected) :
    placeJobIn site gpu job true [selected] = some (RunConfig.tally selected,[]) := by
  rw [← gpuSlots_length] at enough
  simp [placeJobIn,placeAnywhere,single,within,sample,sampled,Nat.not_lt.mpr enough]

theorem sample_exists (candidates : List Nat) (k : Nat) :
    ∃ selected, ∀ draws, sample candidates k (selected :: draws) = some (selected,draws) := by
  have sampled : Sampled candidates k (candidates.take k) :=
    ⟨List.length_take,(List.take_sublist k candidates).subperm⟩
  exact ⟨_,fun draws => if_pos sampled⟩

theorem exists_outcome (site : Site) (gpu : Nat → Nat) (job : Job) (fallback : Bool) :
    ∃ draws config, placeJobIn site gpu job fallback draws = some (config,[]) := by
  unfold placeJobIn
  split
  · obtain ⟨selected,drawn⟩ := sample_exists (workerCandidates site gpu job) 1
    exact ⟨[selected],_,by rw [drawn]; rfl⟩
  · split
    · obtain ⟨chosen,first⟩ := sample_exists (torCandidates site gpu job) 1
      obtain ⟨selected,second⟩ :=
        sample_exists (gpuSlots gpu (site.machines (chosen.headD 0))) job.gpu
      refine ⟨[chosen,selected],RunConfig.tally selected,?_⟩
      rw [placeWithinTor,first]
      change (sample _ _ [selected]).bind _ = _
      rw [second]
      rfl
    · split
      · unfold placeAnywhere
        split
        · exact ⟨[],_,rfl⟩
        · obtain ⟨selected,drawn⟩ := sample_exists (gpuSlots gpu site.workers) job.gpu
          exact ⟨[selected],_,by rw [drawn]; rfl⟩
      · exact ⟨[],_,rfl⟩

theorem keeps_of_counted (small : ∀ w, gpu w < 2^32) (positive : 1 ≤ job.gpu)
    (counted : TorsCounted site gpu job fallback) : KeepsPolicy site gpu job fallback := by
  have candidates : workerCandidates site gpu job ≠ [] ↔ _ := workerCandidates_ne_nil positive
  have tors : torCandidates site gpu job ≠ [] ↔ _ := torCandidates_ne_nil positive
  have policy (draws config rest)
      (placed : placeJobIn site gpu job fallback draws = some (config,rest)) :
      Policy site gpu job fallback config := by
    rcases placed_cases small placed with ⟨w,inside,fits,rfl⟩ | ⟨single,inTor⟩
    · rw [Policy,if_pos ⟨w,inside,fits⟩]
      exact ⟨w,inside,fits,rfl⟩
    have none := fun some => candidates.mpr some single
    rw [Policy,if_neg none]
    rcases inTor with ⟨tor,inside,fits,spread⟩ | ⟨within,elsewhere⟩
    · have enough := fits.trans (Nat.mod_le _ _)
      rw [if_pos ⟨tor,inside,enough⟩]
      exact ⟨tor,inside,enough,spread⟩
    have uncounted := fun some => tors.mpr some within
    by_cases feasible : ∃ tor ∈ site.switches, job.gpu ≤ freeGpus gpu (site.machines tor)
    · -- the sum wrapped around, but only this ToR has free GPUs
      rw [if_pos feasible]
      obtain ⟨tor,inside,enough⟩ := feasible
      obtain ⟨random,alone⟩ : fallback = true ∧ ∀ v ∈ site.workers, ∀ w ∈ site.workers,
          0 < gpu v → 0 < gpu w → site.tor v = site.tor w := by
        rcases counted with some | few | some | alone
        · exact absurd some none
        · exact absurd enough (Nat.not_le.mpr (few tor inside))
        · exact absurd some uncounted
        · exact alone
      have total := enough.trans (freeGpus_filter_le gpu _ site.workers)
      rcases elsewhere with ⟨_,_,spread⟩ | ⟨few,_⟩
      · refine ⟨tor,inside,enough,spread.distinct,fun entry member => ?_,spread.total⟩
        obtain ⟨here,one,available⟩ := spread.within entry member
        obtain ⟨v,machine,free⟩ := exists_free (Nat.lt_of_lt_of_le positive enough)
        obtain ⟨listed,below⟩ := mem_machines.mp machine
        have same := alone entry.1 here v listed (by omega) free
        exact ⟨mem_machines.mpr ⟨here,same.trans below⟩,one,available⟩
      · exact absurd (few random) (Nat.not_lt.mpr total)
    · rw [if_neg feasible]
      rcases elsewhere with ⟨random,enough,spread⟩ | ⟨few,empty⟩
      · rwa [if_pos ⟨random,enough⟩]
      · rwa [if_neg fun both => Nat.not_le.mpr (few both.1) both.2]
  refine ⟨exists_outcome site gpu job fallback,policy,fun few fewer random selected enough sampled =>
    ?_,fun draws config rest placed => placed_spread small positive placed,
    fun draws rest placed => ?_⟩
  · subst random
    refine placed_anywhere (not_not.mp fun some => ?_) (not_not.mp fun some => ?_) enough sampled
    · obtain ⟨w,inside,fits⟩ := candidates.mp some
      exact absurd fits (Nat.not_le.mpr (few w inside))
    · obtain ⟨tor,inside,fits⟩ := tors.mp some
      exact absurd (fits.trans (Nat.mod_le _ _)) (Nat.not_le.mpr (fewer tor inside))
  · have kept := policy draws [] rest placed
    rw [Policy] at kept
    split at kept
    · obtain ⟨_,_,_,empty⟩ := kept
      cases empty
    · rename_i none
      split at kept
      · obtain ⟨_,_,_,spread⟩ := kept
        exact absurd rfl (Spread.ne_nil spread positive)
      · rename_i uncounted
        split at kept
        · exact absurd rfl (Spread.ne_nil kept positive)
        · rename_i nowhere
          exact ⟨fun w inside => Nat.not_le.mp fun fits => none ⟨w,inside,fits⟩,
            fun tor inside => Nat.not_le.mp fun fits => uncounted ⟨tor,inside,fits⟩,
            fun random => Nat.not_le.mp fun fits => nowhere ⟨random,fits⟩⟩

theorem counted_of_keeps (positive : 1 ≤ job.gpu) (keeps : KeepsPolicy site gpu job fallback) :
    TorsCounted site gpu job fallback := by
  by_contra lost
  simp only [TorsCounted,not_or,not_and] at lost
  obtain ⟨none,some,cut,others⟩ := lost
  have single : workerCandidates site gpu job = [] :=
    not_not.mp fun some => none ((workerCandidates_ne_nil positive).mp some)
  have within : torCandidates site gpu job = [] :=
    not_not.mp fun some => cut ((torCandidates_ne_nil positive).mp some)
  have feasible : ∃ tor ∈ site.switches, job.gpu ≤ freeGpus gpu (site.machines tor) := by
    by_contra few
    exact some fun tor inside => Nat.not_le.mp fun fits => few ⟨tor,inside,fits⟩
  cases fallback with
  | false =>
    have placed : placeJobIn site gpu job false [] = Option.some ([],[]) := by
      simp [placeJobIn,single,within]
    obtain ⟨tor,inside,enough⟩ := feasible
    exact absurd enough (Nat.not_le.mpr ((keeps.empty [] [] placed).2.1 tor inside))
  | true =>
    have two : ∃ v ∈ site.workers, ∃ w ∈ site.workers, 0 < gpu v ∧ 0 < gpu w ∧
        site.tor v ≠ site.tor w := by
      by_contra alone
      refine others rfl fun v first w second free free' => not_not.mp fun apart => alone ?_
      exact ⟨v,first,w,second,free,free',apart⟩
    obtain ⟨v,first,w,second,free,free',apart⟩ := two
    obtain ⟨tor,_,enough⟩ := id feasible
    have total := enough.trans (freeGpus_filter_le gpu _ site.workers)
    have several : 2 ≤ job.gpu := by
      by_contra one
      exact none ⟨v,first,by omega⟩
    obtain ⟨selected,sampled,here,there⟩ := exists_sampled_pair first second free free'
      (fun same => apart (congrArg site.tor same)) several (by rwa [gpuSlots_length])
    have kept := keeps.policy _ _ _ (placed_anywhere single within total sampled)
    rw [Policy,if_neg none,if_pos feasible] at kept
    obtain ⟨tor,_,_,spread⟩ := kept
    have below {a : Nat} (member : a ∈ selected) : site.tor a = tor := by
      obtain ⟨entry,listed,rfl⟩ := List.mem_map.mp (RunConfig.mem_tally_wids.mpr member)
      exact (mem_machines.mp (spread.within entry listed).1).2
    exact apart ((below here).trans (below there).symm)

/-- Every outcome of the sampling keeps the policy, unless the sum of a ToR's free GPUs wraps
around. -/
theorem keeps_policy_iff (site : Site) (gpu : Nat → Nat) (job : Job) (fallback : Bool)
    (small : ∀ w, gpu w < 2^32) (positive : 1 ≤ job.gpu) :
    KeepsPolicy site gpu job fallback ↔ TorsCounted site gpu job fallback :=
  ⟨counted_of_keeps positive,keeps_of_counted small positive⟩

theorem keeps_policy_two_racks :
    KeepsPolicy Cluster.twoRacks (fun _ => 4) ⟨0,6,0⟩ true ↔
      TorsCounted Cluster.twoRacks (fun _ => 4) ⟨0,6,0⟩ true :=
  keeps_policy_iff Cluster.twoRacks (fun _ => 4) ⟨0,6,0⟩ true (fun _ => by decide) (by decide)

/-- The topology of five ports: four workers below each of five ToRs. -/
def fivePorts : Site where
  workers := List.range 20
  switches := List.range 5
  tor w := w / 4
  gpuCapacity _ := 2^30
  workersDistinct := List.nodup_range
  covered := by decide
  capacityFits _ := by decide

/-- The free GPUs below each ToR are `2^32`, which the sum counts as none. -/
theorem full_racks_refused : freeGpus fivePorts.gpuCapacity (fivePorts.machines 0) = 2^32 ∧
    placeJobIn fivePorts fivePorts.gpuCapacity ⟨0,2^30 + 1,0⟩ false [] = some ([],[]) ∧
    ¬KeepsPolicy fivePorts fivePorts.gpuCapacity ⟨0,2^30 + 1,0⟩ false := by
  have sum : freeGpus fivePorts.gpuCapacity (fivePorts.machines 0) = 2^32 := by decide
  have placed : placeJobIn fivePorts fivePorts.gpuCapacity ⟨0,2^30 + 1,0⟩ false [] =
      some ([],[]) := by decide
  refine ⟨sum,placed,fun keeps => ?_⟩
  have few := (keeps.empty [] [] placed).2.1 0 (by decide)
  rw [sum] at few
  exact absurd few (by decide)

end YARNPlacement

end CloudSim
