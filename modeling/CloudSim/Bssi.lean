import CloudSim.Network
import Mathlib.Algebra.BigOperators.Group.List.Basic
import Mathlib.Algebra.Order.Field.Rat
import Mathlib.Tactic.FieldSimp
import Mathlib.Tactic.Linarith

/-! `bssi`, which orders the tensors that `Sincronia` schedules, over exact rationals in place of
`double`. -/
namespace CloudSim

/-- A tensor with the key, the job and the `wids_allocated` that its pointers lead to. -/
structure Coflow where
  key : Nat
  job : Nat
  wids : List Nat
  tensor : Tensor
  deriving DecidableEq, Repr

/-- A map of tensors in the order in which it is iterated. -/
abbrev Weights := List (Coflow × ℚ)

namespace Bssi

def data (chunkSize : Nat) (c : Coflow) : ℚ := Worker.allreduceSize chunkSize c.tensor

/-- `data_port_coflow` and `data_port`, whose entries are `DoubleDefaultedToOne`, and the running
maximum. `bottlenecked` is declared without a value. -/
structure Ports where
  dataPortCoflow : Nat → Nat → ℚ := fun _ _ => 1
  dataPort : Nat → ℚ := fun _ => 1
  bottlenecked : Option Nat := none
  currentMax : ℚ := 0

def Ports.add (ports : Ports) (job wid : Nat) (data : ℚ) : Ports :=
  let total := ports.dataPort wid + data
  let added := { ports with
    dataPortCoflow := Function.update ports.dataPortCoflow wid
      (Function.update (ports.dataPortCoflow wid) job (ports.dataPortCoflow wid job + data))
    dataPort := Function.update ports.dataPort wid total }
  if ports.currentMax ≤ total then { added with currentMax := total, bottlenecked := some wid }
  else added

section round
variable (chunkSize : Nat)

/-- The most bottlenecked port. -/
def collect (weights : Weights) : Ports :=
  weights.foldl (fun ports entry => entry.1.wids.foldl
    (fun ports wid => ports.add entry.1.job wid (data chunkSize entry.1)) ports) {}

def ratio (ports : Ports) (bottlenecked : Nat) (entry : Coflow × ℚ) : ℚ :=
  entry.2 / ports.dataPortCoflow bottlenecked entry.1.job

/-- The weighted largest job, with its weight. The first one is below `DBL_MAX`, as every `double`
is. -/
def weightedLargest (ports : Ports) (bottlenecked : Nat) (weights : Weights) :
    Option (Coflow × ℚ) :=
  weights.foldl (fun best entry =>
    match best with
    | none => some entry
    | some largest =>
      if ratio ports bottlenecked entry ≤ ratio ports bottlenecked largest then some entry
      else some largest) none

def scale (ports : Ports) (bottlenecked : Nat) (largest : Coflow × ℚ) (weights : Weights) :
    Weights :=
  (weights.filter fun entry => entry.1 ≠ largest.1).map fun entry =>
    (entry.1,entry.2 - largest.2 * ports.dataPortCoflow bottlenecked entry.1.job /
      ports.dataPortCoflow bottlenecked largest.1.job)

/-- The key pushed to the front of the result, and the weights left. -/
def round (weights : Weights) : Option (Nat × Weights) := do
  let ports := collect chunkSize weights
  let bottlenecked ← ports.bottlenecked
  let largest ← weightedLargest ports bottlenecked weights
  return (largest.1.key,scale ports bottlenecked largest weights)

/-- The test of the loop after `n` rounds. `CustomTopology` converts the size of the map to `int`, and
`iters - 1` overflows if that is the least one. -/
def continues : Topology → Nat → Nat → Option Bool
  | .hierarchical _,size,n => some (u32 n < sub64 size 1)
  | .custom,size,n => if intOf size = -2^31 then none else some (n < intOf size - 1)

/-- The loop after `n` rounds. Each takes a weight away, and without a weight none is possible, so
`size + 1` tests are enough. -/
def loop (topo : Topology) (size : Nat) :
    Nat → Nat → Weights → List Nat → Option (Weights × List Nat)
  | 0,_,_,_ => none
  | fuel + 1,n,weights,result => do
    if ← continues topo size n then
      let (key,left) ← round chunkSize weights
      loop topo size fuel (n + 1) left (key :: result)
    else return (weights,result)

/-- A number of rounds. -/
def rounds : Nat → Weights → List Nat → Option (Weights × List Nat)
  | 0,weights,result => some (weights,result)
  | n + 1,weights,result => do
    let (key,left) ← round chunkSize weights
    rounds n left (key :: result)

end round

end Bssi

def Topology.bssi (topo : Topology) (chunkSize : Nat) (weights : Weights) : Option (List Nat) := do
  let (left,result) ←
    Bssi.loop chunkSize topo weights.length (weights.length + 1) 0 weights []
  let first ← left.head?
  return first.1.key :: result

namespace Bssi

/-! What a round computes. -/

def portTotal (chunkSize : Nat) (weights : Weights) (p : Nat) : ℚ :=
  (weights.map fun entry => if p ∈ entry.1.wids then data chunkSize entry.1 else 0).sum

theorem data_nonneg (chunkSize : Nat) (c : Coflow) : 0 ≤ data chunkSize c := Nat.cast_nonneg _

/-- The bottlenecked port is of the largest total among all, and the last such port seen. -/
structure Ports.Sound (ports : Ports) (seen : List Nat) : Prop where
  unit : ∀ p j, 1 ≤ ports.dataPortCoflow p j
  total : ∀ p, 1 ≤ ports.dataPort p
  fresh : ports.bottlenecked = none → seen = [] ∧ ports.currentMax = 0 ∧ ∀ p, ports.dataPort p = 1
  largest : ∀ b, ports.bottlenecked = some b →
    (∃ before after, seen = before ++ b :: after ∧ ∀ w ∈ after, ports.dataPort w < ports.dataPort b) ∧
      ports.currentMax = ports.dataPort b ∧ ∀ p, ports.dataPort p ≤ ports.dataPort b

theorem Ports.initial_sound : ({} : Ports).Sound [] where
  unit _ _ := le_rfl
  total _ := le_rfl
  fresh _ := ⟨rfl,rfl,fun _ => rfl⟩
  largest b none := by cases none

/-- Totals only grow, so a port that grows past the maximum is the new one. -/
theorem Ports.Sound.add {ports : Ports} {seen : List Nat} (sound : ports.Sound seen) (job wid : Nat)
    {size : ℚ} (nonneg : 0 ≤ size) : (ports.add job wid size).Sound (seen ++ [wid]) := by
  have coflows : ∀ p j, 1 ≤ Function.update ports.dataPortCoflow wid
      (Function.update (ports.dataPortCoflow wid) job (ports.dataPortCoflow wid job + size)) p j := by
    intro p j
    have before := sound.unit p j
    rcases eq_or_ne p wid with rfl | other
    · rcases eq_or_ne j job with rfl | apart
      · simp only [Function.update_self]
        linarith
      · simpa [apart] using before
    · simpa [other] using before
  have grows (p : Nat) :
      ports.dataPort p ≤ Function.update ports.dataPort wid (ports.dataPort wid + size) p := by
    rcases eq_or_ne p wid with rfl | other
    · simpa using nonneg
    · simp [other]
  have totals (p : Nat) := (sound.total p).trans (grows p)
  unfold Ports.add
  dsimp only
  split
  · rename_i more
    refine ⟨coflows,totals,fun none => by (cases none),?_⟩
    rintro b same
    obtain rfl := Option.some.inj same
    refine ⟨⟨seen,[],rfl,fun w none => by cases none⟩,by simp,fun p => ?_⟩
    dsimp only
    rw [Function.update_self]
    rcases eq_or_ne p wid with rfl | other
    · rw [Function.update_self]
    · rw [Function.update_of_ne other]
      cases known : ports.bottlenecked with
      | none =>
        rw [(sound.fresh known).2.2 p]
        linarith [sound.total wid]
      | some b =>
        obtain ⟨_,current,bound⟩ := sound.largest b known
        exact (bound p).trans (current ▸ more)
  · rename_i less
    have less := not_le.mp less
    refine ⟨coflows,totals,fun none => ?_,fun b same => ?_⟩
    · rw [(sound.fresh none).2.1] at less
      linarith [sound.total wid]
    · obtain ⟨⟨before,after,split,smaller⟩,current,bound⟩ := sound.largest b same
      have apart : b ≠ wid := by
        rintro rfl
        rw [current] at less
        linarith
      refine ⟨⟨before,after ++ [wid],by simp [split],fun w member => ?_⟩,?_,fun p => ?_⟩
      · dsimp only
        rw [Function.update_of_ne apart]
        rcases eq_or_ne w wid with rfl | other
        · rwa [Function.update_self,← current]
        · rw [Function.update_of_ne other]
          rcases List.mem_append.mp member with old | new
          · exact smaller w old
          · exact absurd (List.mem_singleton.mp new) other
      · dsimp only
        rw [current,Function.update_of_ne apart]
      · dsimp only
        rw [Function.update_of_ne apart]
        rcases eq_or_ne p wid with rfl | other
        · rw [Function.update_self,← current]
          exact less.le
        · rw [Function.update_of_ne other]
          exact bound p

theorem Ports.add_dataPort (ports : Ports) (job wid : Nat) (size : ℚ) (p : Nat) :
    (ports.add job wid size).dataPort p = ports.dataPort p + if wid = p then size else 0 := by
  have total : Function.update ports.dataPort wid (ports.dataPort wid + size) p =
      ports.dataPort p + if wid = p then size else 0 := by
    rcases eq_or_ne p wid with rfl | other
    · simp
    · simp [other,Ne.symm other]
  unfold Ports.add
  dsimp only
  split <;> exact total

theorem Ports.add_dataPortCoflow (ports : Ports) (job wid : Nat) (size : ℚ) (p j : Nat) :
    (ports.add job wid size).dataPortCoflow p j =
      ports.dataPortCoflow p j + if wid = p ∧ job = j then size else 0 := by
  have total : Function.update ports.dataPortCoflow wid (Function.update (ports.dataPortCoflow wid)
      job (ports.dataPortCoflow wid job + size)) p j =
        ports.dataPortCoflow p j + if wid = p ∧ job = j then size else 0 := by
    rcases eq_or_ne p wid with rfl | other
    · rcases eq_or_ne j job with rfl | apart
      · simp
      · simp [apart,Ne.symm apart]
    · simp [other,Ne.symm other]
  unfold Ports.add
  dsimp only
  split <;> exact total

structure Addition where
  job : Nat
  wid : Nat
  size : ℚ

def additions (chunkSize : Nat) (weights : Weights) : List Addition :=
  weights.flatMap fun entry => entry.1.wids.map fun wid =>
    ⟨entry.1.job,wid,data chunkSize entry.1⟩

def addAll (ports : Ports) (additions : List Addition) : Ports :=
  additions.foldl (fun ports a => ports.add a.job a.wid a.size) ports

theorem collect_eq (chunkSize : Nat) (weights : Weights) :
    collect chunkSize weights = addAll {} (additions chunkSize weights) := by
  rw [addAll,additions,List.foldl_flatMap]
  simp only [List.foldl_map]
  rfl

theorem addAll_dataPort (as : List Addition) (ports : Ports) (p : Nat) :
    (addAll ports as).dataPort p =
      ports.dataPort p + (as.map fun a => if a.wid = p then a.size else 0).sum := by
  induction as generalizing ports with
  | nil => simp [addAll]
  | cons a rest ih =>
    have later := ih (ports.add a.job a.wid a.size)
    rw [Ports.add_dataPort] at later
    rw [List.map_cons,List.sum_cons,← add_assoc]
    exact later

theorem addAll_dataPortCoflow (as : List Addition) (ports : Ports) (p j : Nat) :
    (addAll ports as).dataPortCoflow p j = ports.dataPortCoflow p j +
      (as.map fun a => if a.wid = p ∧ a.job = j then a.size else 0).sum := by
  induction as generalizing ports with
  | nil => simp [addAll]
  | cons a rest ih =>
    have later := ih (ports.add a.job a.wid a.size)
    rw [Ports.add_dataPortCoflow] at later
    rw [List.map_cons,List.sum_cons,← add_assoc]
    exact later

theorem addAll_sound (as : List Addition) {ports : Ports} {seen : List Nat}
    (sound : ports.Sound seen) (nonneg : ∀ a ∈ as, 0 ≤ a.size) :
    (addAll ports as).Sound (seen ++ as.map Addition.wid) := by
  induction as generalizing ports seen with
  | nil => simpa [addAll] using sound
  | cons a rest ih =>
    have later := ih (sound.add a.job a.wid (nonneg a List.mem_cons_self))
      fun b member => nonneg b (List.mem_cons_of_mem _ member)
    rw [List.append_assoc] at later
    exact later

theorem sum_ite_eq {A : Type} [DecidableEq A] {xs : List A} (distinct : xs.Nodup) (x : A) (size : ℚ) :
    (xs.map fun y => if y = x then size else 0).sum = if x ∈ xs then size else 0 := by
  induction xs with
  | nil => simp
  | cons head rest ih =>
    obtain ⟨absent,distinct⟩ := List.nodup_cons.mp distinct
    rw [List.map_cons,List.sum_cons,ih distinct]
    rcases eq_or_ne head x with rfl | other
    · simp [absent]
    · simp [other,Ne.symm other]

/-- A map as `Sincronia` builds it: one tensor of each job, jobs with workers below `nodes`. -/
structure WellFormed (nodes : Nat) (weights : Weights) : Prop where
  jobs : (weights.map fun entry => entry.1.job).Nodup
  keys : (weights.map fun entry => entry.1.key).Nodup
  workers : ∀ entry ∈ weights, entry.1.wids ≠ []
  distinct : ∀ entry ∈ weights, entry.1.wids.Nodup
  nodes : ∀ entry ∈ weights, ∀ w ∈ entry.1.wids, w < nodes

section collect
variable {chunkSize nodes : Nat} {weights : Weights}

theorem collect_sound : (collect chunkSize weights).Sound
    (weights.flatMap fun entry => entry.1.wids) := by
  have sound := addAll_sound (additions chunkSize weights) Ports.initial_sound (by
    intro a member
    obtain ⟨entry,_,listed⟩ := List.mem_flatMap.mp member
    obtain ⟨w,_,rfl⟩ := List.mem_map.mp listed
    exact data_nonneg chunkSize entry.1)
  rw [← collect_eq,List.nil_append] at sound
  have seen : (additions chunkSize weights).map Addition.wid =
      weights.flatMap fun entry => entry.1.wids := by
    simp [additions,List.map_flatMap,Function.comp_def]
  rwa [seen] at sound

theorem collect_dataPort (distinct : ∀ entry ∈ weights, entry.1.wids.Nodup) (p : Nat) :
    (collect chunkSize weights).dataPort p = 1 + portTotal chunkSize weights p := by
  rw [collect_eq,addAll_dataPort]
  congr 1
  induction weights with
  | nil => rfl
  | cons head rest ih =>
    have later := ih fun entry member => distinct entry (List.mem_cons_of_mem _ member)
    have here := sum_ite_eq (distinct head List.mem_cons_self) p (data chunkSize head.1)
    rw [additions,List.flatMap_cons,List.map_append,List.sum_append,portTotal,List.map_cons,
      List.sum_cons,List.map_map]
    exact congrArg₂ _ here later

theorem additions_other {j : Nat} (absent : j ∉ weights.map fun entry => entry.1.job) (p : Nat) :
    ((additions chunkSize weights).map fun a =>
      if a.wid = p ∧ a.job = j then a.size else 0).sum = 0 := by
  apply List.sum_eq_zero
  intro x member
  obtain ⟨a,listed,rfl⟩ := List.mem_map.mp member
  obtain ⟨entry,inside,listed⟩ := List.mem_flatMap.mp listed
  obtain ⟨w,_,rfl⟩ := List.mem_map.mp listed
  refine if_neg fun same => absent ?_
  exact List.mem_map.mpr ⟨entry,inside,same.2⟩

theorem collect_dataPortCoflow (formed : WellFormed nodes weights) {entry : Coflow × ℚ}
    (member : entry ∈ weights) (p : Nat) :
    (collect chunkSize weights).dataPortCoflow p entry.1.job =
      1 + if p ∈ entry.1.wids then data chunkSize entry.1 else 0 := by
  rw [collect_eq,addAll_dataPortCoflow]
  congr 1
  have jobs := formed.jobs
  have distinct := formed.distinct
  clear formed
  induction weights with
  | nil => cases member
  | cons head rest ih =>
    obtain ⟨absent,jobs⟩ := List.nodup_cons.mp jobs
    have here := sum_ite_eq (distinct head List.mem_cons_self) p (data chunkSize head.1)
    have split (j : Nat) : ((additions chunkSize (head :: rest)).map fun a =>
        if a.wid = p ∧ a.job = j then a.size else 0).sum =
        (head.1.wids.map fun w =>
          if w = p ∧ head.1.job = j then data chunkSize head.1 else 0).sum +
        ((additions chunkSize rest).map fun a =>
          if a.wid = p ∧ a.job = j then a.size else 0).sum := by
      rw [additions,List.flatMap_cons,List.map_append,List.sum_append,List.map_map]
      rfl
    rw [split]
    rcases List.mem_cons.mp member with rfl | later
    · rw [additions_other absent,add_zero]
      simpa using here
    · have apart : head.1.job ≠ entry.1.job := fun same =>
        absent (List.mem_map.mpr ⟨entry,later,same.symm⟩)
      rw [ih later jobs fun e inside => distinct e (List.mem_cons_of_mem _ inside)]
      simp [apart]

end collect

theorem weightedLargest_spec (ports : Ports) (b : Nat) {weights : Weights} (some : weights ≠ []) :
    ∃ before largest after, weights = before ++ largest :: after ∧
      weightedLargest ports b weights = Option.some largest ∧
      (∀ entry ∈ before, ratio ports b largest ≤ ratio ports b entry) ∧
      ∀ entry ∈ after, ratio ports b largest < ratio ports b entry := by
  induction weights using List.reverseRecOn with
  | nil => exact absurd rfl some
  | append_singleton rest entry ih =>
    have fold : weightedLargest ports b (rest ++ [entry]) =
        match weightedLargest ports b rest with
        | none => Option.some entry
        | Option.some largest =>
          if ratio ports b entry ≤ ratio ports b largest then Option.some entry
          else Option.some largest := by
      rw [weightedLargest,List.foldl_append]
      rfl
    rcases eq_or_ne rest [] with rfl | nonempty
    · exact ⟨[],entry,[],rfl,fold,by simp,by simp⟩
    · obtain ⟨before,largest,after,rfl,found,first,second⟩ := ih nonempty
      rw [found] at fold
      dsimp only at fold
      by_cases less : ratio ports b entry ≤ ratio ports b largest
      · rw [if_pos less] at fold
        refine ⟨before ++ largest :: after,entry,[],rfl,fold,fun e member => ?_,by simp⟩
        rcases List.mem_append.mp member with inside | inside
        · exact less.trans (first e inside)
        · rcases List.mem_cons.mp inside with rfl | inside
          · exact less
          · exact less.trans (second e inside).le
      · rw [if_neg less] at fold
        refine ⟨before,largest,after ++ [entry],by simp,fold,first,fun e member => ?_⟩
        rcases List.mem_append.mp member with inside | inside
        · exact second e inside
        · rw [List.mem_singleton.mp inside]
          exact not_le.mp less

/-- What is left of a weight when the chosen job had the least ratio of weight to data. -/
theorem residual_nonneg {K : Type} [Field K] [LinearOrder K] [IsStrictOrderedRing K]
    {weight size least most : K} (positive : 0 < size) (least' : least / most ≤ weight / size) :
    0 ≤ weight - least * size / most := by
  have bound : least / most * size ≤ weight := by
    calc
      least / most * size ≤ weight / size * size := mul_le_mul_of_nonneg_right least' positive.le
      _ = weight := div_mul_cancel₀ weight positive.ne'
  rw [sub_nonneg,mul_div_right_comm]
  exact bound

end Bssi
end CloudSim
