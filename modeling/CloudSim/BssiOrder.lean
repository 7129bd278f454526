import CloudSim.Bssi

/-! The order that `bssi` returns, round by round. -/
namespace CloudSim.Bssi

/-- What a round with these weights finds and leaves. -/
structure SoundRound (chunkSize nodes : Nat) (weights : Weights) (b : Nat)
    (largest : Coflow × ℚ) : Prop where
  bottlenecked : (collect chunkSize weights).bottlenecked = some b
  weightedLargest : weightedLargest (collect chunkSize weights) b weights = some largest
  node : b < nodes
  maximal : ∀ p, portTotal chunkSize weights p ≤ portTotal chunkSize weights b
  divisors : ∀ entry ∈ weights, (collect chunkSize weights).dataPortCoflow b entry.1.job ≠ 0
  nonneg : ∀ entry ∈ scale (collect chunkSize weights) b largest weights, 0 ≤ entry.2

section round
variable (chunkSize : Nat) {nodes : Nat} {weights : Weights} {ports : Ports} {b : Nat}
  {largest : Coflow × ℚ}

theorem weightedLargest_mem (found : weightedLargest ports b weights = some largest) :
    largest ∈ weights := by
  have nonempty : weights ≠ [] := by
    rintro rfl
    cases found
  obtain ⟨before,entry,after,rfl,same,_⟩ := weightedLargest_spec ports b nonempty
  obtain rfl := Option.some.inj (same.symm.trans found)
  simp

theorem exists_bottlenecked (formed : WellFormed nodes weights) (nonempty : weights ≠ []) :
    ∃ b, (collect chunkSize weights).bottlenecked = some b := by
  cases known : (collect chunkSize weights).bottlenecked with
  | some b => exact ⟨b,rfl⟩
  | none =>
    obtain ⟨entry,rest,rfl⟩ := List.exists_cons_of_ne_nil nonempty
    have unseen := (collect_sound.fresh known).1
    rw [List.flatMap_cons,List.append_eq_nil_iff] at unseen
    exact absurd unseen.1 (formed.workers entry List.mem_cons_self)

/-- The bottlenecked port is a node and of the largest total, the chosen job has the least ratio,
and so no weight that is left falls below 0. -/
theorem exists_soundRound (formed : WellFormed nodes weights) (nonempty : weights ≠ []) :
    ∃ b largest, SoundRound chunkSize nodes weights b largest := by
  have sound : (collect chunkSize weights).Sound _ := collect_sound
  obtain ⟨b,known⟩ := exists_bottlenecked chunkSize formed nonempty
  obtain ⟨⟨front,rest,ports,_⟩,_,bound⟩ := sound.largest b known
  have seen : b ∈ weights.flatMap fun entry => entry.1.wids := by simp [ports]
  obtain ⟨before,largest,after,split,found,first,second⟩ :=
    weightedLargest_spec (collect chunkSize weights) b nonempty
  have positive (j : Nat) : 0 < (collect chunkSize weights).dataPortCoflow b j :=
    lt_of_lt_of_le zero_lt_one (sound.unit b j)
  have least (entry) (member : entry ∈ weights) :
      ratio (collect chunkSize weights) b largest ≤ ratio (collect chunkSize weights) b entry := by
    rw [split] at member
    rcases List.mem_append.mp member with inside | inside
    · exact first entry inside
    · rcases List.mem_cons.mp inside with rfl | inside
      · exact le_rfl
      · exact (second entry inside).le
  refine ⟨b,largest,known,found,?_,fun p => ?_,fun entry _ => (positive _).ne',?_⟩
  · obtain ⟨entry,member,inside⟩ := List.mem_flatMap.mp seen
    exact formed.nodes entry member b inside
  · have totals := bound p
    rw [collect_dataPort formed.distinct,collect_dataPort formed.distinct] at totals
    linarith
  · intro entry member
    obtain ⟨before,inside,rfl⟩ := List.mem_map.mp member
    exact residual_nonneg (positive _) (least before (List.mem_of_mem_filter inside))

variable {chunkSize} in
theorem round_eq (sound : SoundRound chunkSize nodes weights b largest) :
    round chunkSize weights =
      some (largest.1.key,scale (collect chunkSize weights) b largest weights) := by
  rw [round,sound.bottlenecked]
  dsimp only [Option.bind_eq_bind,Option.bind_some]
  rw [sound.weightedLargest]
  rfl

theorem scale_coflows (ports : Ports) (b : Nat) (largest : Coflow × ℚ)
    (distinct : (weights.map Prod.fst).Nodup) :
    (scale ports b largest weights).map Prod.fst = (weights.map Prod.fst).erase largest.1 := by
  rw [distinct.erase_eq_filter,scale,List.map_map,List.filter_map]
  congr 1
  refine List.filter_congr fun entry _ => ?_
  by_cases same : entry.1 = largest.1 <;> simp [same]

theorem WellFormed.coflows (formed : WellFormed nodes weights) : (weights.map Prod.fst).Nodup := by
  have jobs := formed.jobs
  have same : weights.map (fun entry => entry.1.job) = (weights.map Prod.fst).map Coflow.job := by
    simp
  rw [same] at jobs
  exact jobs.of_map _

theorem WellFormed.scale (formed : WellFormed nodes weights) (ports : Ports) (b : Nat)
    (largest : Coflow × ℚ) : WellFormed nodes (scale ports b largest weights) := by
  have coflows := scale_coflows ports b largest formed.coflows
  have sublist : ((Bssi.scale ports b largest weights).map Prod.fst).Sublist (weights.map Prod.fst) :=
    coflows ▸ List.erase_sublist
  have kept (entry) (member : entry ∈ Bssi.scale ports b largest weights) :
      ∃ before ∈ weights, before.1 = entry.1 :=
    List.mem_map.mp (sublist.subset (List.mem_map_of_mem member))
  constructor
  case jobs =>
    simpa [Function.comp_def] using (sublist.map Coflow.job).nodup (by
      simpa [Function.comp_def] using formed.jobs)
  case keys =>
    simpa [Function.comp_def] using (sublist.map Coflow.key).nodup (by
      simpa [Function.comp_def] using formed.keys)
  case workers =>
    intro entry member
    obtain ⟨before,inside,same⟩ := kept entry member
    exact same ▸ formed.workers before inside
  case distinct =>
    intro entry member
    obtain ⟨before,inside,same⟩ := kept entry member
    exact same ▸ formed.distinct before inside
  case nodes =>
    intro entry member
    obtain ⟨before,inside,same⟩ := kept entry member
    exact same ▸ formed.nodes before inside

end round

def keys (weights : Weights) : List Nat := weights.map fun entry => entry.1.key

theorem rounds_spec (chunkSize : Nat) {nodes : Nat} (n : Nat) {weights : Weights} (pushed : List Nat)
    (formed : WellFormed nodes weights) (short : n ≤ weights.length) :
    ∃ left result, rounds chunkSize n weights pushed = some (left,result) ∧
      WellFormed nodes left ∧ left.length + n = weights.length ∧
      (result ++ keys left).Perm (pushed ++ keys weights) := by
  induction n generalizing weights pushed with
  | zero => exact ⟨weights,pushed,rfl,formed,rfl,List.Perm.refl _⟩
  | succ n ih =>
    have nonempty : weights ≠ [] := by
      rintro rfl
      cases short
    obtain ⟨b,largest,sound⟩ := exists_soundRound chunkSize formed nonempty
    have member := weightedLargest_mem sound.weightedLargest
    have coflows := scale_coflows (collect chunkSize weights) b largest formed.coflows
    have inside : largest.1 ∈ weights.map Prod.fst := List.mem_map_of_mem member
    have length : (scale (collect chunkSize weights) b largest weights).length + 1 =
        weights.length := by
      have counts := congrArg List.length coflows
      have positive := List.length_pos_of_mem member
      rw [List.length_map,List.length_erase_of_mem inside,List.length_map] at counts
      omega
    have perm : (largest.1.key :: keys (scale (collect chunkSize weights) b largest weights)).Perm
        (keys weights) := by
      have split := ((List.perm_cons_erase inside).map Coflow.key).symm
      rw [← coflows] at split
      simpa [keys,Function.comp_def] using split
    obtain ⟨left,result,taken,formed',count,all⟩ := ih (largest.1.key :: pushed)
      (formed.scale (collect chunkSize weights) b largest) (by omega)
    refine ⟨left,result,?_,formed',by omega,all.trans ?_⟩
    · rw [rounds,round_eq sound]
      exact taken
    · exact List.perm_middle.symm.trans (perm.append_left pushed)

/-- Every round of the loop is sound, and the result is all keys. -/
structure Permutes (topo : Topology) (chunkSize nodes : Nat) (weights : Weights) : Prop where
  sound : ∀ n, (∀ m ≤ n, continues topo weights.length m = some true) → ∃ left result b largest,
    rounds chunkSize n weights [] = some (left,result) ∧ SoundRound chunkSize nodes left b largest
  all : ∃ result, topo.bssi chunkSize weights = some result ∧ result.Perm (keys weights)

/-- The tests of the loop end it after `k` rounds. -/
def Stops (topo : Topology) (size k : Nat) : Prop :=
  ∀ n ≤ k, continues topo size n = some (decide (n < k))

theorem hierarchical_stops (topo : HierarchicalTopology) (size : Nat)
    (small : sub64 size 1 < 2^32) : Stops (.hierarchical topo) size (sub64 size 1) := by
  intro n le
  rw [continues,u32_of_lt (by omega)]

theorem custom_stops (size : Nat) (defined : intOf size ≠ -2^31) :
    Stops .custom size (intOf size - 1).toNat := by
  intro n le
  rw [continues,if_neg defined]
  congr 2
  rw [eq_iff_iff]
  omega

section bssi
variable (topo : Topology) (chunkSize : Nat) {nodes : Nat} {weights : Weights}

theorem loop_stops (fuel k n size : Nat) (weights : Weights) (result : List Nat)
    (stops : Stops topo size (n + k)) :
    loop chunkSize topo size (fuel + k + 1) n weights result =
      rounds chunkSize k weights result := by
  induction k generalizing n weights result with
  | zero =>
    rw [loop,stops n (Nat.le_add_right ..)]
    simp [rounds]
  | succ k ih =>
    rw [loop,stops n (Nat.le_add_right ..),rounds]
    have more : n < n + (k + 1) := by omega
    simp only [more,decide_true,Option.bind_eq_bind,Option.bind_some,if_true]
    congr 1
    funext taken
    exact ih (n + 1) taken.2 (taken.1 :: result) (by rwa [Nat.add_right_comm n 1 k])

/-- A test that never fails ends the loop in a round without weights, however often it is made. -/
theorem loop_endless {size : Nat} (endless : ∀ n, continues topo size n = some true)
    (fuel n : Nat) (weights : Weights) (result : List Nat) :
    loop chunkSize topo size fuel n weights result = none := by
  induction fuel generalizing n weights result with
  | zero => rfl
  | succ fuel ih =>
    rw [loop,endless n]
    simp only [Option.bind_eq_bind,Option.bind_some,if_true]
    exact Option.bind_eq_none_iff.mpr fun taken _ => ih (n + 1) taken.2 (taken.1 :: result)

variable {topo}

/-- The keys that `bssi` returns are one more than its rounds. -/
theorem bssi_spec (formed : WellFormed nodes weights) (stops : Stops topo weights.length k)
    (few : k < weights.length) : ∃ left first result,
      topo.bssi chunkSize weights = some (first.1.key :: result) ∧
      left.length + 1 + k = weights.length ∧
      (result ++ keys (first :: left)).Perm (keys weights) := by
  obtain ⟨left,result,taken,_,count,all⟩ := rounds_spec chunkSize k [] formed few.le
  obtain ⟨first,left,rfl⟩ := List.exists_cons_of_length_pos (show 0 < left.length by omega)
  have ends := loop_stops topo chunkSize (weights.length - k) k 0 weights.length weights []
    (by rwa [Nat.zero_add])
  rw [Nat.sub_add_cancel few.le,taken] at ends
  refine ⟨left,first,result,?_,by simpa using count,all⟩
  rw [Topology.bssi,ends]
  rfl

theorem sound_rounds (formed : WellFormed nodes weights) (n : Nat) (less : n < weights.length) :
    ∃ left result b largest, rounds chunkSize n weights [] = some (left,result) ∧
      SoundRound chunkSize nodes left b largest := by
  obtain ⟨left,result,taken,formed',count,_⟩ := rounds_spec chunkSize n [] formed less.le
  have some : left ≠ [] := List.ne_nil_of_length_pos (by omega)
  obtain ⟨b,largest,sound⟩ := exists_soundRound chunkSize formed' some
  exact ⟨left,result,b,largest,taken,sound⟩

theorem all_keys_iff (formed : WellFormed nodes weights) (stops : Stops topo weights.length k)
    (few : k < weights.length) :
    (∃ result, topo.bssi chunkSize weights = some result ∧ result.Perm (keys weights)) ↔
      k + 1 = weights.length := by
  obtain ⟨left,first,result,returned,count,perm⟩ := bssi_spec chunkSize formed stops few
  constructor
  · rintro ⟨other,same,all⟩
    obtain rfl := Option.some.inj (returned.symm.trans same)
    have lengths := all.length_eq
    have lengths' := perm.length_eq
    simp only [keys,List.length_append,List.length_map,List.length_cons] at lengths lengths'
    omega
  · intro full
    have last : left = [] := List.length_eq_zero_iff.mp (by omega)
    subst last
    refine ⟨_,returned,List.Perm.trans ?_ perm⟩
    exact (List.perm_append_singleton first.1.key result).symm

/-- A loop that stops after all rounds but one is sound and returns all keys. -/
theorem permutes_of_stops (formed : WellFormed nodes weights) (nonempty : weights ≠ [])
    (stops : Stops topo weights.length (weights.length - 1)) :
    Permutes topo chunkSize nodes weights := by
  have positive := List.length_pos_of_ne_nil nonempty
  refine ⟨fun n tests => sound_rounds chunkSize formed n ?_,
    (all_keys_iff chunkSize formed stops (by omega)).mpr (by omega)⟩
  by_contra late
  have passed := tests (weights.length - 1) (by omega)
  rw [stops _ le_rfl] at passed
  simp at passed

end bssi

/-- `bssi` returns every key exactly once, unless there are more weights than the counter of the
loop counts: an `unsigned`, and an `int` for `CustomTopology`. -/
theorem bssi_permutes_iff (topo : Topology) (chunkSize nodes : Nat) (weights : Weights)
    (formed : WellFormed nodes weights) (nonempty : weights ≠ []) :
    Permutes topo chunkSize nodes weights ↔
      weights.length ≤ 2^32 ∧ (topo = .custom → weights.length < 2^31) := by
  have positive := List.length_pos_of_ne_nil nonempty
  cases topo with
  | hierarchical topo =>
    have wrap : sub64 weights.length 1 < weights.length := by
      unfold sub64 u64
      omega
    constructor
    · intro permutes
      refine ⟨?_,fun same => by cases same⟩
      by_cases small : sub64 weights.length 1 < 2^32
      · have full := (all_keys_iff chunkSize formed (hierarchical_stops topo _ small) wrap).mp
          permutes.all
        omega
      · have endless (n : Nat) : continues (.hierarchical topo) weights.length n = some true := by
          have below := u32_lt n
          rw [continues,decide_eq_true (by omega)]
        obtain ⟨result,returned,_⟩ := permutes.all
        rw [Topology.bssi,loop_endless _ chunkSize endless] at returned
        cases returned
    · rintro ⟨small,_⟩
      have exact' : sub64 weights.length 1 = weights.length - 1 := sub64_of_le positive (by omega)
      have stops := hierarchical_stops topo weights.length (by omega)
      rw [exact'] at stops
      exact permutes_of_stops chunkSize formed nonempty stops
  | custom =>
    constructor
    · intro permutes
      by_cases defined : intOf weights.length = -2^31
      · obtain ⟨result,returned,_⟩ := permutes.all
        rw [Topology.bssi,loop,continues,if_pos defined] at returned
        cases returned
      · have few : (intOf weights.length - 1).toNat < weights.length := by
          unfold intOf u32
          split <;> omega
        have full := (all_keys_iff chunkSize formed (custom_stops _ defined) few).mp permutes.all
        have short : weights.length < 2^31 := by
          unfold intOf u32 at full
          split at full <;> omega
        exact ⟨by omega,fun _ => short⟩
    · rintro ⟨_,small⟩
      have whole := intOf_of_lt (small rfl)
      have stops := custom_stops weights.length (by omega)
      rw [whole,show ((weights.length : Int) - 1).toNat = weights.length - 1 by omega] at stops
      exact permutes_of_stops chunkSize formed nonempty stops

/-- Two jobs on ports of their own. -/
def twoJobs : Weights := [(⟨7,0,[0],{ size := 5 }⟩,10),(⟨8,1,[1],{ size := 1 }⟩,1)]

theorem twoJobs_wellFormed : WellFormed 2 twoJobs := by
  constructor <;> decide

theorem bssi_permutes_two_jobs : Permutes .custom 0 2 twoJobs :=
  (bssi_permutes_iff .custom 0 2 twoJobs twoJobs_wellFormed (List.cons_ne_nil _ _)).mpr
    ⟨by decide,fun _ => by decide⟩

/-- Jobs that all use one port. -/
def equalJobs (n : Nat) : Weights := (List.range n).map fun j => (⟨j,j,[0],{ size := 1 }⟩,0)

theorem equalJobs_length (n : Nat) : (equalJobs n).length = n := by
  rw [equalJobs,List.length_map,List.length_range]

theorem equalJobs_wellFormed (n : Nat) : WellFormed 1 (equalJobs n) := by
  have shape (entry) (member : entry ∈ equalJobs n) : entry.1.wids = [0] := by
    obtain ⟨j,_,rfl⟩ := List.mem_map.mp member
    rfl
  constructor
  case jobs => simpa [equalJobs,Function.comp_def] using List.nodup_range
  case keys => simpa [equalJobs,Function.comp_def] using List.nodup_range
  case workers =>
    intro entry member
    rw [shape entry member]
    exact List.cons_ne_nil _ _
  case distinct =>
    intro entry member
    rw [shape entry member]
    exact List.nodup_singleton _
  case nodes =>
    intro entry member w inside
    rw [shape entry member] at inside
    simp_all

theorem equalJobs_bssi {n : Nat} (positive : 0 < n) (stops : Stops .custom n 0) :
    Topology.custom.bssi 0 (equalJobs n) = some [0] := by
  have head : (equalJobs n).head? = some (⟨0,0,[0],{ size := 1 }⟩,0) := by
    rw [equalJobs,List.head?_map,List.head?_range,if_neg positive.ne']
    rfl
  rw [Topology.bssi,equalJobs_length,loop_stops .custom 0 n 0 0 n (equalJobs n) [] stops,rounds]
  dsimp only [Option.bind_eq_bind,Option.bind_some]
  rw [head]
  rfl

theorem equalJobs_weights (n : Nat) : ∀ entry ∈ equalJobs n, 0 ≤ entry.2 := by
  intro entry member
  obtain ⟨j,_,rfl⟩ := List.mem_map.mp member
  exact le_rfl

theorem equalJobs_keys {n : Nat} (several : 1 < n) : ¬[0].Perm (keys (equalJobs n)) := by
  intro perm
  have lengths := perm.length_eq
  rw [keys,List.length_map,equalJobs_length] at lengths
  exact several.ne lengths

/-- The size 2^31 + 1 is negative as an `int`. -/
theorem int_size_overflows : WellFormed 1 (equalJobs (2^31 + 1)) ∧
    (∀ entry ∈ equalJobs (2^31 + 1), 0 ≤ entry.2) ∧
    Topology.custom.bssi 0 (equalJobs (2^31 + 1)) = some [0] ∧
    ¬[0].Perm (keys (equalJobs (2^31 + 1))) :=
  ⟨equalJobs_wellFormed _,equalJobs_weights _,
    equalJobs_bssi (by decide) (custom_stops (2^31 + 1) (by decide)),
    equalJobs_keys (by decide)⟩

/-- The job that a round puts last uses the bottlenecked port. -/
def LastUsesBottleneck (chunkSize : Nat) (weights : Weights) : Prop :=
  ∃ b ∈ (collect chunkSize weights).bottlenecked,
    ∃ largest ∈ weightedLargest (collect chunkSize weights) b weights, b ∈ largest.1.wids

/-- The port on which the jobs have the most data; of several, the last one in the map. -/
def Busiest (chunkSize : Nat) (weights : Weights) (b : Nat) : Prop :=
  ∃ before after, (weights.flatMap fun entry => entry.1.wids) = before ++ b :: after ∧
    (∀ p, portTotal chunkSize weights p ≤ portTotal chunkSize weights b) ∧
    ∀ w ∈ after, portTotal chunkSize weights w < portTotal chunkSize weights b

theorem Busiest.unique {chunkSize : Nat} {weights : Weights} {a b : Nat}
    (one : Busiest chunkSize weights a) (other : Busiest chunkSize weights b) : a = b := by
  obtain ⟨before,after,split,largest,last⟩ := one
  obtain ⟨before',after',split',largest',last'⟩ := other
  rcases List.append_eq_append_iff.mp (split.symm.trans split') with
    ⟨gap,_,rest⟩ | ⟨gap,_,rest⟩
  · cases gap with
    | nil => exact (List.cons.inj rest).1
    | cons head gap =>
      obtain ⟨_,rfl⟩ := List.cons.inj rest
      exact absurd (last b (by simp)) (largest' a).not_gt
  · cases gap with
    | nil => exact (List.cons.inj rest).1.symm
    | cons head gap =>
      obtain ⟨_,rfl⟩ := List.cons.inj rest
      exact absurd (last' a (by simp)) (largest b).not_gt

/-- Some job on the port with the most data has a smaller ratio of weight to data than the weight of
any job that is not on the port; where they are equal, it comes later in the map. -/
def PortSeparates (chunkSize : Nat) (weights : Weights) : Prop :=
  ∃ b, Busiest chunkSize weights b ∧ ∃ before job after,
    weights = before ++ job :: after ∧ b ∈ job.1.wids ∧
      (∀ other ∈ before, b ∉ other.1.wids → job.2 / (1 + data chunkSize job.1) ≤ other.2) ∧
      ∀ other ∈ after, b ∉ other.1.wids → job.2 / (1 + data chunkSize job.1) < other.2

theorem idxOf_lt_of_split {A : Type} [DecidableEq A] {xs before after : List A} {x y : A}
    (distinct : xs.Nodup) (split : xs = before ++ x :: after) (member : y ∈ before) :
    xs.idxOf y < xs.idxOf x := by
  subst split
  have absent : x ∉ before := fun inside =>
    (List.nodup_append.mp distinct).2.2 x inside x List.mem_cons_self rfl
  rw [List.idxOf_append_of_mem member,List.idxOf_append_of_notMem absent,List.idxOf_cons_self,
    Nat.add_zero]
  exact List.idxOf_lt_length_of_mem member

theorem bottlenecked_iff {chunkSize nodes : Nat} {weights : Weights}
    (formed : WellFormed nodes weights) (nonempty : weights ≠ []) :
    b ∈ (collect chunkSize weights).bottlenecked ↔ Busiest chunkSize weights b := by
  have total (p : Nat) : (collect chunkSize weights).dataPort p =
      1 + portTotal chunkSize weights p := collect_dataPort formed.distinct p
  have busiest {b : Nat} (known : b ∈ (collect chunkSize weights).bottlenecked) :
      Busiest chunkSize weights b := by
    obtain ⟨⟨before,after,split,last⟩,_,bound⟩ := collect_sound.largest b known
    refine ⟨before,after,split,fun p => ?_,fun w member => ?_⟩
    · have bound := bound p
      rw [total,total] at bound
      linarith
    · have less := last w member
      rw [total,total] at less
      linarith
  constructor
  · exact busiest
  · intro most
    obtain ⟨a,known⟩ := exists_bottlenecked chunkSize formed nonempty
    rwa [most.unique (busiest known)]

theorem lastUsesBottleneck_iff {chunkSize nodes : Nat} {weights : Weights}
    (formed : WellFormed nodes weights) (nonempty : weights ≠ []) :
    LastUsesBottleneck chunkSize weights ↔ PortSeparates chunkSize weights := by
  have on {b : Nat} {entry : Coflow × ℚ} (member : entry ∈ weights) (uses : b ∈ entry.1.wids) :
      ratio (collect chunkSize weights) b entry = entry.2 / (1 + data chunkSize entry.1) := by
    rw [ratio,collect_dataPortCoflow formed member,if_pos uses]
  have off {b : Nat} {entry : Coflow × ℚ} (member : entry ∈ weights) (avoids : b ∉ entry.1.wids) :
      ratio (collect chunkSize weights) b entry = entry.2 := by
    rw [ratio,collect_dataPortCoflow formed member,if_neg avoids,add_zero,div_one]
  constructor
  · rintro ⟨b,known,largest,found,uses⟩
    obtain ⟨before,job,after,split,same,first,second⟩ :=
      weightedLargest_spec (collect chunkSize weights) b nonempty
    obtain rfl := Option.some.inj (same.symm.trans found)
    have inside : job ∈ weights := by simp [split]
    refine ⟨b,(bottlenecked_iff formed nonempty).mp known,before,job,after,split,uses,
      fun other member avoids => ?_,fun other member avoids => ?_⟩
    · have least := first other member
      rwa [on inside uses,off (by simp [split,member]) avoids] at least
    · have least := second other member
      rwa [on inside uses,off (by simp [split,member]) avoids] at least
  · rintro ⟨b,known,before,job,after,split,uses,first,second⟩
    obtain ⟨left,largest,right,split',found,least,last⟩ :=
      weightedLargest_spec (collect chunkSize weights) b nonempty
    refine ⟨b,(bottlenecked_iff formed nonempty).mpr known,largest,found,?_⟩
    by_contra avoids
    have distinct : weights.Nodup := formed.coflows.of_map _
    have inside : job ∈ weights := by simp [split]
    have also : largest ∈ weights := by simp [split']
    have apart : largest ≠ job := fun same => avoids (same ▸ uses)
    have beats := on inside uses
    have weight := off also avoids
    -- The chosen job would stand before `job`, or have the larger ratio.
    have mine : job ∈ left ∨ job ∈ right := by
      rw [split',List.mem_append,List.mem_cons] at inside
      rcases inside with here | same | there
      · exact Or.inl here
      · exact absurd same.symm apart
      · exact Or.inr there
    have theirs : largest ∈ before ∨ largest ∈ after := by
      rw [split,List.mem_append,List.mem_cons] at also
      rcases also with here | same | there
      · exact Or.inl here
      · exact absurd same apart
      · exact Or.inr there
    rcases mine with early | late
    · have less := least job early
      rcases theirs with here | there
      · exact absurd (idxOf_lt_of_split distinct split' early)
          (idxOf_lt_of_split distinct split here).asymm
      · have more := second largest there avoids
        rw [beats,weight] at less
        exact absurd less (not_le.mpr more)
    · have less := last job late
      rw [beats,weight] at less
      rcases theirs with here | there
      · exact absurd less (not_lt.mpr (first largest here avoids))
      · exact absurd less (second largest there avoids).asymm

/-- In every round the job put last uses the bottlenecked port exactly if the port separates the
weights of that round. -/
theorem last_uses_bottleneck_iff (chunkSize nodes : Nat) (weights : Weights)
    (formed : WellFormed nodes weights) (n : Nat) (another : n + 1 < weights.length) :
    ∃ left result, rounds chunkSize n weights [] = some (left,result) ∧
      (LastUsesBottleneck chunkSize left ↔ PortSeparates chunkSize left) := by
  obtain ⟨left,result,taken,formed',count,_⟩ := rounds_spec chunkSize n [] formed (by omega)
  have some : left ≠ [] := List.ne_nil_of_length_pos (by omega)
  exact ⟨left,result,taken,lastUsesBottleneck_iff formed' some⟩

/-- The same jobs, of which the one on the busier port has the least ratio of weight to data. -/
def separatedJobs : Weights := [(⟨7,0,[0],{ size := 5 }⟩,10),(⟨8,1,[1],{ size := 1 }⟩,9)]

theorem last_uses_bottleneck_two_jobs : ∃ left result,
    rounds 0 0 separatedJobs [] = some (left,result) ∧ PortSeparates 0 left ∧
      LastUsesBottleneck 0 left := by
  have formed : WellFormed 2 separatedJobs := by constructor <;> decide
  obtain ⟨left,result,taken,uses⟩ := last_uses_bottleneck_iff 0 2 separatedJobs formed 0 (by decide)
  obtain ⟨rfl,rfl⟩ := Prod.mk.inj (Option.some.inj taken)
  have bottlenecked : (collect 0 separatedJobs).bottlenecked = some 0 := by decide +kernel
  have largest : weightedLargest (collect 0 separatedJobs) 0 separatedJobs =
      some (⟨7,0,[0],{ size := 5 }⟩,10) := by decide +kernel
  have last : LastUsesBottleneck 0 separatedJobs :=
    ⟨0,bottlenecked,_,largest,List.mem_singleton.mpr rfl⟩
  exact ⟨_,_,rfl,uses.mp last,last⟩

/-- The second job has no data on the bottlenecked port of the first, and is put last. -/
theorem last_avoids_bottleneck : WellFormed 2 twoJobs ∧
    (collect 0 twoJobs).bottlenecked = some 0 ∧
    weightedLargest (collect 0 twoJobs) 0 twoJobs = some (⟨8,1,[1],{ size := 1 }⟩,1) ∧
    ¬LastUsesBottleneck 0 twoJobs := by
  have bottlenecked : (collect 0 twoJobs).bottlenecked = some 0 := by decide +kernel
  have largest : weightedLargest (collect 0 twoJobs) 0 twoJobs =
      some (⟨8,1,[1],{ size := 1 }⟩,1) := by decide +kernel
  refine ⟨twoJobs_wellFormed,bottlenecked,largest,?_⟩
  rintro ⟨b,known,last,found,uses⟩
  obtain rfl := Option.some.inj (bottlenecked.symm.trans known)
  obtain rfl := Option.some.inj (largest.symm.trans found)
  exact absurd uses (by decide)

end CloudSim.Bssi
