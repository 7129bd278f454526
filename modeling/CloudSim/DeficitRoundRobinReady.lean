import CloudSim.DeficitRoundRobin
import CloudSim.Pipeline
import Mathlib.Data.List.Nodup

/-! The queues of `DeficitRoundRobin` from one enqueue to the heap of its job: the index map, the
groups in the heaps, and the end of a group's turn. -/
namespace CloudSim

namespace DeficitRoundRobin

/-- The map holds the position of every job of the deque, and nothing else. -/
structure Indexed (ready : List ReadyPqueue) (idx : Table Nat Nat) : Prop where
  distinct : (ready.map Prod.fst).Nodup
  exact : ∀ j i, idx j = some i ↔ ∃ pq, ready[i]? = some (j,pq)

section indexed
variable {ready : List ReadyPqueue} {idx : Table Nat Nat} {i j : Nat} {pq : List (List Entry)}

theorem Indexed.at (indexed : Indexed ready idx) (member : (j,pq) ∈ ready) :
    ∃ i, idx j = some i ∧ ready[i]? = some (j,pq) := by
  obtain ⟨i,found⟩ := List.mem_iff_getElem?.mp member
  exact ⟨i,(indexed.exact j i).mpr ⟨pq,found⟩,found⟩

theorem Indexed.unique (indexed : Indexed ready idx) (member : (j,pq) ∈ ready)
    (also : (j,pq') ∈ ready) : pq = pq' := by
  have same := List.inj_on_of_nodup_map indexed.distinct member also rfl
  exact congrArg Prod.snd same

theorem Indexed.absent (indexed : Indexed ready idx) (none : idx j = none) : (j,pq) ∉ ready := by
  intro member
  obtain ⟨i,found,_⟩ := indexed.at member
  rw [none] at found
  cases found

theorem Indexed.mem_set (indexed : Indexed ready idx) (found : ready[i]? = some (j,pq))
    (pq' : List (List Entry)) (k : Nat) (q : List (List Entry)) :
    (k,q) ∈ ready.set i (j,pq') ↔ k = j ∧ q = pq' ∨ k ≠ j ∧ (k,q) ∈ ready := by
  obtain ⟨inside,here⟩ := List.getElem?_eq_some_iff.mp found
  simp only [List.mem_iff_getElem?]
  constructor
  · rintro ⟨l,at'⟩
    rcases eq_or_ne i l with rfl | other
    · rw [List.getElem?_set_self inside] at at'
      cases at'
      exact .inl ⟨rfl,rfl⟩
    · rw [List.getElem?_set_ne other] at at'
      refine .inr ⟨?_,l,at'⟩
      rintro rfl
      have first := (indexed.exact k i).mpr ⟨pq,found⟩
      rw [(indexed.exact k l).mpr ⟨q,at'⟩] at first
      exact other (Option.some.inj first).symm
  · rintro (⟨rfl,rfl⟩ | ⟨other,l,at'⟩)
    · exact ⟨i,List.getElem?_set_self inside⟩
    · refine ⟨l,?_⟩
      rw [List.getElem?_set_ne]
      · exact at'
      · rintro rfl
        rw [found] at at'
        cases at'
        exact other rfl

theorem Indexed.set (indexed : Indexed ready idx) (found : ready[i]? = some (j,pq))
    (pq' : List (List Entry)) : Indexed (ready.set i (j,pq')) idx := by
  obtain ⟨inside,here⟩ := List.getElem?_eq_some_iff.mp found
  constructor
  · have same : (ready.set i (j,pq')).map Prod.fst = ready.map Prod.fst := by
      apply List.ext_getElem?
      intro l
      rw [List.getElem?_map,List.getElem?_map]
      rcases eq_or_ne i l with rfl | other
      · rw [List.getElem?_set_self inside,found]
        rfl
      · rw [List.getElem?_set_ne other]
    rw [same]
    exact indexed.distinct
  · intro k l
    rw [indexed.exact]
    rcases eq_or_ne i l with rfl | other
    · simp only [List.getElem?_set_self inside,found,Option.some.injEq,Prod.mk.injEq]
      simp
    · rw [List.getElem?_set_ne other]

theorem Indexed.append (indexed : Indexed ready idx) (none : idx j = none)
    (pq : List (List Entry)) : Indexed (ready ++ [(j,pq)]) (idx.put j ready.length) := by
  have absent : j ∉ ready.map Prod.fst := by
    intro member
    obtain ⟨⟨_,q⟩,known,rfl⟩ := List.mem_map.mp member
    exact indexed.absent none known
  constructor
  · rw [List.map_append]
    apply List.nodup_append.mpr
    refine ⟨indexed.distinct,List.nodup_singleton _,?_⟩
    intro k member l same
    rw [List.mem_singleton.mp same]
    rintro rfl
    exact absent member
  · intro k l
    rcases eq_or_ne k j with rfl | other
    · rw [Table.put_same]
      constructor
      · rintro ⟨⟩
        exact ⟨pq,by simp⟩
      · rintro ⟨q,found⟩
        rcases Nat.lt_or_ge l ready.length with before | after
        · rw [List.getElem?_append_left before] at found
          exact absurd (List.mem_map.mpr ⟨_,List.mem_of_getElem? found,rfl⟩) absent
        · obtain ⟨inside,_⟩ := List.getElem?_eq_some_iff.mp found
          rw [List.length_append,List.length_singleton] at inside
          exact congrArg some (by omega)
    · rw [Table.put_other _ other,indexed.exact]
      constructor
      · rintro ⟨q,found⟩
        obtain ⟨inside,_⟩ := List.getElem?_eq_some_iff.mp found
        exact ⟨q,by rw [List.getElem?_append_left inside,found]⟩
      · rintro ⟨q,found⟩
        rcases Nat.lt_or_ge l ready.length with before | after
        · rw [List.getElem?_append_left before] at found
          exact ⟨q,found⟩
        · rw [List.getElem?_append_right after] at found
          obtain ⟨_,same⟩ := List.mem_singleton.mp (List.mem_of_getElem? found)
          exact absurd rfl other

/-- The loop of `update_maps` from one position of the deque on. -/
theorem updateMaps_from (ready : List ReadyPqueue) (distinct : (ready.map Prod.fst).Nodup)
    (start : Nat) (idx : Table Nat Nat) (j : Nat) :
    (∀ i pq, ready[i]? = some (j,pq) → ((ready.zipIdx start).foldl
      (fun idx entry => idx.put entry.1.1 entry.2) idx) j = some (start + i)) ∧
    ((∀ pq, (j,pq) ∉ ready) → ((ready.zipIdx start).foldl
      (fun idx entry => idx.put entry.1.1 entry.2) idx) j = idx j) := by
  induction ready generalizing start idx with
  | nil => exact ⟨fun _ _ none => (by cases none),fun _ => rfl⟩
  | cons first rest ih =>
    obtain ⟨absent,distinct⟩ := List.nodup_cons.mp distinct
    obtain ⟨later,never⟩ := ih distinct (start+1) (idx.put first.1 start)
    constructor
    · intro i pq found
      cases i with
      | zero =>
        cases found
        have none : ∀ q, (j,q) ∉ rest := fun q member => absent (List.mem_map.mpr ⟨_,member,rfl⟩)
        exact (never none).trans (Table.put_same _ _ _)
      | succ i =>
        rw [show start + (i+1) = start + 1 + i by omega]
        exact later i pq found
    · intro none
      have other : j ≠ first.1 := fun same => none first.2 (same ▸ List.mem_cons_self)
      exact (never fun q member => none q (List.mem_cons_of_mem _ member)).trans
        (Table.put_other _ other _)

/-- `cleanup_for_job` takes the job out and counts the positions anew. -/
theorem Indexed.cleanup (indexed : Indexed ready idx) (j : Nat) :
    Indexed (ready.filter fun entry => entry.1 ≠ j)
      (updateMaps (ready.filter fun entry => entry.1 ≠ j) (idx.erase j)) := by
  have distinct : ((ready.filter fun entry => entry.1 ≠ j).map Prod.fst).Nodup :=
    (List.filter_sublist.map _).nodup indexed.distinct
  refine ⟨distinct,fun k i => ?_⟩
  obtain ⟨present,absent⟩ := updateMaps_from _ distinct 0 (idx.erase j) k
  constructor
  · intro known
    by_cases inside : ∃ pq, (k,pq) ∈ ready.filter fun entry => entry.1 ≠ j
    · obtain ⟨pq,member⟩ := inside
      obtain ⟨l,found⟩ := List.mem_iff_getElem?.mp member
      have same := (present l pq found).symm.trans known
      rw [Nat.zero_add] at same
      cases same
      exact ⟨pq,found⟩
    · have old := (absent fun pq member => inside ⟨pq,member⟩).symm.trans known
      rcases eq_or_ne k j with rfl | other
      · rw [Table.erase_same] at old
        cases old
      · rw [Table.erase_other _ other,indexed.exact] at old
        obtain ⟨pq,found⟩ := old
        exact absurd ⟨pq,List.mem_filter.mpr ⟨List.mem_of_getElem? found,by simpa using other⟩⟩ inside
  · rintro ⟨pq,found⟩
    rw [show i = 0 + i by omega]
    exact present i pq found

end indexed

/-- The group is in the ready queue of its job: it is full, and its last chunk has not been
started. -/
structure Waiting (cfg : Config) (work : Workload) (g : Group) (j t : Nat) : Prop where
  layer : t < (work.model j).length
  some : g.arrived ≠ []
  full : g.arrived.length = work.numWorkersAllocated j
  staying : g.leaving cfg.chunkSize (work.size j t) = false

/-- The entries of a layer in `queue`. -/
def content (work : Workload) (g : Group) (ws : List Nat) (j t : Nat) : List Entry :=
  if g.arrived.length = work.numWorkersAllocated j then (g.advance ws).entries j t
  else g.entries j t

def Listed (cfg : Config) (work : Workload) (group : Nat → Group) (j : Nat)
    (pq : List (List Entry)) : Prop :=
  pq.Nodup ∧ ∀ tensors, tensors ∈ pq ↔
    ∃ t, Waiting cfg work (group t) j t ∧ tensors = (group t).entries j t

def Popped (cfg : Config) (work : Workload) (g : Group) (j t turn : Nat) : Prop :=
  turn < g.turn ∨ turn = g.turn ∧ g.leaving cfg.chunkSize (work.size j t) = true

instance (cfg : Config) (work : Workload) (g : Group) (j t turn : Nat) :
    Decidable (Popped cfg work g j t turn) := inferInstanceAs (Decidable (_ ∨ _))

def poppedEntries (s : DeficitRoundRobin) : List Entry :=
  (s.picks.filter Pick.popped).flatMap fun pick => pick.tensors.map Prod.fst

/-- One tensor of every worker of a job, all of one iteration and equally far reduced; the group
is popped for its last chunk. -/
def Uniform (cfg : Config) (work : Workload) (pick : Pick) : Prop :=
  ∃ j t turn reduced, t < (work.model j).length ∧
    pick.tensors.Perm ((work.widsAllocated j).map fun w => (⟨⟨w,j,t⟩,turn⟩,turn,reduced)) ∧
    (pick.popped = true ↔ work.size j t ≤ reduced + cfg.chunkSize)

def Active (g : Group) : Prop :=
  g.phase ≠ .served ∧ ∀ chunks waiter, g.phase ≠ .reducing chunks waiter []

structure Sound (cfg : Config) (work : Workload) (groups : Nat → Nat → Group)
    (early : Nat → Nat → List Nat) (s : DeficitRoundRobin) : Prop where
  pipelined : Pipelined work cfg.chunkSize groups early s.clients
  retired : Retired work s.clients
  queue : ∀ j t, t < (work.model j).length →
    s.queue.get (cfg.getKey j t) = content work (groups j t) (early j t) j t
  indexed : Indexed s.readyPqueues s.jidToDequeIdx
  listed : ∀ j pq, (j,pq) ∈ s.readyPqueues → Listed cfg work (groups j) j pq
  present : ∀ j t, Waiting cfg work (groups j t) j t → ∃ pq, (j,pq) ∈ s.readyPqueues
  active : ∀ j t, t < (work.model j).length → Active (groups j t)
  picked : ∀ pick ∈ s.picks, Uniform cfg work pick
  popped : ∀ j t, t < (work.model j).length → ∀ w ∈ work.widsAllocated j, ∀ turn,
    s.poppedEntries.count ⟨⟨w,j,t⟩,turn⟩ =
      if Popped cfg work (groups j t) j t turn then 1 else 0

variable {cfg : Config} {topo : Topology} {work : Workload} {groups : Nat → Nat → Group}
  {early : Nat → Nat → List Nat} {s : DeficitRoundRobin} {j t : Nat}

theorem initial_sound (cfg : Config) (work : Workload) :
    Sound cfg work (fun _ _ => {}) (fun _ _ => []) (initial work) where
  pipelined := Pipelined.initial work cfg.chunkSize
  retired _ _ done := by cases done
  queue j t _ := by
    unfold content
    split <;> rfl
  indexed := ⟨List.nodup_nil,fun _ _ => ⟨(by intro known; cases known),fun ⟨_,found⟩ => by cases found⟩⟩
  listed _ _ member := by cases member
  present _ _ waiting := absurd rfl waiting.some
  active _ _ _ := ⟨Phase.noConfusion,fun _ _ => Phase.noConfusion⟩
  picked _ member := by cases member
  popped j t _ _ _ turn := by simp [initial,poppedEntries,Popped,Group.leaving]

theorem early_nil (pipe : Pipelined work cfg.chunkSize groups early c)
    (layer : t < (work.model j).length)
    (staying : (groups j t).leaving cfg.chunkSize (work.size j t) = false) : early j t = [] := by
  apply List.eq_nil_iff_forall_not_mem.mpr
  intro w member
  have ended := (pipe.ended j t layer w member).2
  cases phase : (groups j t).phase with
  | gathering chunks => simp [Group.ended,phase] at ended
  | reducing chunks waiter outstanding =>
    simp only [Group.ended,Group.leaving,phase,decide_eq_true_eq,decide_eq_false_iff_not]
      at ended staying
    exact staying ended.1
  | served => simp [Group.leaving,phase] at staying

theorem Waiting.layer_eq {g h : Group} (waits : Waiting cfg work g j t)
    (same : g.entries j t = h.entries i l) : j = i ∧ t = l := by
  obtain ⟨w,arrived⟩ := List.exists_mem_of_ne_nil _ waits.some
  have member : (⟨⟨w,j,t⟩,g.turn⟩ : Entry) ∈ g.entries j t :=
    Group.mem_entries.mpr ⟨rfl,rfl,rfl,arrived⟩
  rw [same] at member
  exact ⟨(Group.mem_entries.mp member).1,(Group.mem_entries.mp member).2.1⟩

section listed
variable {pq q : List (List Entry)} {g : Group}

theorem Listed.same (listed : Listed cfg work (groups j) j pq)
    (waiting : Waiting cfg work g j t ↔ Waiting cfg work (groups j t) j t)
    (entries : g.entries j t = (groups j t).entries j t) :
    Listed cfg work (setGroup groups j t g j) j pq := by
  refine ⟨listed.1,fun tensors => (listed.2 tensors).trans (exists_congr fun l => ?_)⟩
  by_cases same : l = t
  · subst same
    rw [setGroup_same,waiting,entries]
  · rw [setGroup_other fun both => same both.2]

theorem Listed.idle (listed : Listed cfg work (groups j) j pq)
    (before : ¬Waiting cfg work (groups j t) j t) (after : ¬Waiting cfg work g j t) :
    Listed cfg work (setGroup groups j t g j) j pq := by
  refine ⟨listed.1,fun tensors => (listed.2 tensors).trans (exists_congr fun l => ?_)⟩
  by_cases same : l = t
  · subst same
    rw [setGroup_same]
    exact iff_of_false (fun both => before both.1) fun both => after both.1
  · rw [setGroup_other fun both => same both.2]

theorem Listed.insert (listed : Listed cfg work (groups j) j pq)
    (before : ¬Waiting cfg work (groups j t) j t) (waits : Waiting cfg work g j t)
    (perm : q.Perm (g.entries j t :: pq)) : Listed cfg work (setGroup groups j t g j) j q := by
  constructor
  · apply perm.nodup_iff.mpr
    apply List.nodup_cons.mpr
    refine ⟨fun member => ?_,listed.1⟩
    obtain ⟨l,also,same⟩ := (listed.2 _).mp member
    cases (waits.layer_eq same).2
    exact before also
  · intro tensors
    rw [perm.mem_iff,List.mem_cons,listed.2]
    constructor
    · rintro (rfl | ⟨l,also,rfl⟩)
      · exact ⟨t,by rwa [setGroup_same],by rw [setGroup_same]⟩
      · have other : l ≠ t := by
          rintro rfl
          exact before also
        refine ⟨l,?_⟩
        rw [setGroup_other fun both => other both.2]
        exact ⟨also,rfl⟩
    · rintro ⟨l,also,rfl⟩
      by_cases same : l = t
      · subst same
        rw [setGroup_same]
        exact .inl rfl
      · rw [setGroup_other fun both => same both.2] at also ⊢
        exact .inr ⟨l,also,rfl⟩

theorem Listed.erase (listed : Listed cfg work (groups j) j pq)
    (waits : Waiting cfg work (groups j t) j t) (after : ¬Waiting cfg work g j t)
    (perm : pq.Perm ((groups j t).entries j t :: q)) :
    Listed cfg work (setGroup groups j t g j) j q := by
  obtain ⟨absent,nodup⟩ := List.nodup_cons.mp (perm.nodup_iff.mp listed.1)
  refine ⟨nodup,fun tensors => ?_⟩
  constructor
  · intro member
    obtain ⟨l,also,rfl⟩ := (listed.2 tensors).mp (perm.mem_iff.mpr (List.mem_cons_of_mem _ member))
    have other : l ≠ t := by
      rintro rfl
      exact absent member
    refine ⟨l,?_⟩
    rw [setGroup_other fun both => other both.2]
    exact ⟨also,rfl⟩
  · rintro ⟨l,also,rfl⟩
    by_cases same : l = t
    · subst same
      rw [setGroup_same] at also
      exact absurd also after
    · rw [setGroup_other fun both => same both.2] at also ⊢
      have member := perm.mem_iff.mp ((listed.2 _).mpr ⟨l,also,rfl⟩)
      rcases List.mem_cons.mp member with equal | rest
      · exact absurd (also.layer_eq equal).2 same
      · exact rest

end listed

theorem relayer (sound : Sound cfg work groups early s) (distinct : work.DistinctKeys cfg)
    (layer : t < (work.model j).length) {g : Group} {ws : List Nat} {s' : DeficitRoundRobin}
    (pipelined : Pipelined work cfg.chunkSize (setGroup groups j t g) (setNext early j t ws)
      s'.clients)
    (retired : Retired work s'.clients)
    (here : s'.queue.get (cfg.getKey j t) = content work g ws j t)
    (elsewhere : ∀ key, key ≠ cfg.getKey j t → s'.queue.get key = s.queue.get key)
    (indexed : Indexed s'.readyPqueues s'.jidToDequeIdx)
    (others : ∀ i pq, i ≠ j → ((i,pq) ∈ s'.readyPqueues ↔ (i,pq) ∈ s.readyPqueues))
    (listed : ∀ pq, (j,pq) ∈ s'.readyPqueues → Listed cfg work (setGroup groups j t g j) j pq)
    (present : Waiting cfg work g j t ∨ (∃ pq, (j,pq) ∈ s.readyPqueues) →
      ∃ pq, (j,pq) ∈ s'.readyPqueues)
    (active : Active g) (picked : ∀ pick ∈ s'.picks, Uniform cfg work pick)
    (foreign : ∀ e, ¬(e.tensor.job = j ∧ e.tensor.tensorId = t) →
      s'.poppedEntries.count e = s.poppedEntries.count e)
    (popped : ∀ w ∈ work.widsAllocated j, ∀ turn, s'.poppedEntries.count ⟨⟨w,j,t⟩,turn⟩ =
      if Popped cfg work g j t turn then 1 else 0) :
    Sound cfg work (setGroup groups j t g) (setNext early j t ws) s' := by
  have apart {i : Nat} (other : i ≠ j) : setGroup groups j t g i = groups i :=
    funext fun _ => setGroup_other fun both => other both.1
  constructor
  case pipelined => exact pipelined
  case retired => exact retired
  case queue =>
    intro i l inside
    by_cases same : i = j ∧ l = t
    · obtain ⟨rfl,rfl⟩ := same
      rw [setGroup_same,setNext_same,here]
    · rw [setGroup_other same,setNext_other same,elsewhere]
      · exact sound.queue i l inside
      · exact fun equal => same (distinct i l j t inside layer equal)
  case indexed => exact indexed
  case listed =>
    intro i pq member
    by_cases same : i = j
    · subst same
      exact listed pq member
    · rw [apart same]
      exact sound.listed i pq ((others i pq same).mp member)
  case present =>
    intro i l waits
    by_cases same : i = j
    · subst same
      apply present
      by_cases also : l = t
      · subst also
        rw [setGroup_same] at waits
        exact .inl waits
      · rw [setGroup_other fun both => also both.2] at waits
        exact .inr (sound.present i l waits)
    · rw [apart same] at waits
      obtain ⟨pq,member⟩ := sound.present i l waits
      exact ⟨pq,(others i pq same).mpr member⟩
  case active =>
    intro i l inside
    by_cases same : i = j ∧ l = t
    · obtain ⟨rfl,rfl⟩ := same
      rwa [setGroup_same]
    · rw [setGroup_other same]
      exact sound.active i l inside
  case picked => exact picked
  case popped =>
    intro i l inside w member turn
    by_cases same : i = j ∧ l = t
    · obtain ⟨rfl,rfl⟩ := same
      simp only [setGroup_same]
      exact popped w member turn
    · simp only [setGroup_other same]
      exact (foreign _ same).trans (sound.popped i l inside w member turn)

/-- A step that changes one layer, but neither its ready group nor what was popped. -/
theorem keep (sound : Sound cfg work groups early s) (distinct : work.DistinctKeys cfg)
    (layer : t < (work.model j).length) {g : Group} {ws : List Nat} {s' : DeficitRoundRobin}
    (pipelined : Pipelined work cfg.chunkSize (setGroup groups j t g) (setNext early j t ws)
      s'.clients)
    (retired : Retired work s'.clients)
    (here : s'.queue.get (cfg.getKey j t) = content work g ws j t)
    (elsewhere : ∀ key, key ≠ cfg.getKey j t → s'.queue.get key = s.queue.get key)
    (listed : ∀ pq, Listed cfg work (groups j) j pq →
      Listed cfg work (setGroup groups j t g j) j pq)
    (waiting : Waiting cfg work g j t → Waiting cfg work (groups j t) j t)
    (popped : ∀ turn, Popped cfg work g j t turn ↔ Popped cfg work (groups j t) j t turn)
    (active : Active g) (pqueues : s'.readyPqueues = s.readyPqueues)
    (idx : s'.jidToDequeIdx = s.jidToDequeIdx) (picks : s'.picks = s.picks) :
    Sound cfg work (setGroup groups j t g) (setNext early j t ws) s' := by
  have entries : s'.poppedEntries = s.poppedEntries := by rw [poppedEntries,picks,poppedEntries]
  apply relayer sound distinct layer pipelined retired here elsewhere
  case indexed => rw [pqueues,idx]; exact sound.indexed
  case others => intro i pq _; rw [pqueues]
  case listed =>
    intro pq member
    rw [pqueues] at member
    exact listed pq (sound.listed j pq member)
  case present =>
    rw [pqueues]
    rintro (waits | known)
    · exact sound.present j t (waiting waits)
    · exact known
  case active => exact active
  case picked => rw [picks]; exact sound.picked
  case foreign => intro e _; rw [entries]
  case popped =>
    intro w member turn
    rw [entries,sound.popped j t layer w member turn]
    simp only [popped]

section push
variable {r : TensorRef}

theorem push_get_same : (s.push cfg r).queue.get (r.key cfg) =
    s.queue.get (r.key cfg) ++ [s.clients.nextEntry r] := by simp [push]

theorem push_get_other {key : Nat} (other : key ≠ r.key cfg) :
    (s.push cfg r).queue.get key = s.queue.get key := by simp [push,other]

theorem content_room {g : Group} (ws : List Nat)
    (room : g.arrived.length ≠ work.numWorkersAllocated j) :
    content work g ws j t = g.entries j t := if_neg room

theorem content_full {g : Group} (ws : List Nat)
    (full : g.arrived.length = work.numWorkersAllocated j) :
    content work g ws j t = (g.advance ws).entries j t := if_pos full

theorem Active.arrive {g : Group} (active : Active g) (w : Nat) : Active (g.arrive w) := active

theorem not_waiting_of_room {g : Group} (room : g.arrived.length ≠ work.numWorkersAllocated j) :
    ¬Waiting cfg work g j t := fun waits => room waits.full

theorem entries_arrive (g : Group) (w : Nat) :
    (g.arrive w).entries j t = g.entries j t ++ [⟨⟨w,j,t⟩,g.turn⟩] := by
  simp [Group.entries]

theorem push_sound (sound : Sound cfg work groups early s) (distinct : work.DistinctKeys cfg)
    (may : s.clients.MayEnqueue work r)
    (room : (groups r.job r.tensorId).arrived.length + 1 < work.numWorkersAllocated r.job) :
    Sound cfg work
      (setGroup groups r.job r.tensorId ((groups r.job r.tensorId).arrive r.machine)) early
      (s.push cfg r) ∧
    ((s.push cfg r).queue.get (r.key cfg)).length ≠ work.numWorkersAllocated r.job := by
  have layer := may.1.2
  have before : (groups r.job r.tensorId).arrived.length ≠ work.numWorkersAllocated r.job := by
    omega
  obtain ⟨pipelined,_,turn⟩ := sound.pipelined.enqueue may (by omega)
  have queue : s.queue.get (r.key cfg) = (groups r.job r.tensorId).entries r.job r.tensorId :=
    (sound.queue _ _ layer).trans (content_room _ before)
  have pushed : (s.push cfg r).queue.get (r.key cfg) =
      ((groups r.job r.tensorId).arrive r.machine).entries r.job r.tensorId := by
    rw [push_get_same,queue,entries_arrive,Clients.nextEntry,turn]
  have after : ((groups r.job r.tensorId).arrive r.machine).arrived.length ≠
      work.numWorkersAllocated r.job := by
    rw [Group.arrive_arrived,List.length_append,List.length_singleton]
    omega
  constructor
  · rw [← setNext_self early r.job r.tensorId] at pipelined ⊢
    apply keep sound distinct layer pipelined (sound.retired.enqueue may)
    case here => exact pushed.trans (content_room _ after).symm
    case elsewhere => exact fun key other => push_get_other other
    case listed =>
      exact fun pq listed => listed.idle (not_waiting_of_room before) (not_waiting_of_room after)
    case waiting => exact fun waits => absurd waits (not_waiting_of_room after)
    case popped => exact fun turn => Iff.rfl
    case active => exact (sound.active _ _ layer).arrive _
    case pqueues => rfl
    case idx => rfl
    case picks => rfl
  · rw [pushed,Group.entries,List.length_map]
    exact after

theorem working (sound : Sound cfg work groups early s) (layer : t < (work.model j).length)
    (full : (groups j t).arrived.length = work.numWorkersAllocated j)
    (several : 0 < work.numWorkersAllocated j) :
    ∃ v ∈ work.widsAllocated j, (groups j t).ended cfg.chunkSize (work.size j t) v = false := by
  have rep := sound.pipelined.consistent.represents j t layer
  have active := sound.active j t layer
  cases phase : (groups j t).phase with
  | gathering chunks =>
    have some : (groups j t).arrived ≠ [] := by
      intro empty
      rw [empty,List.length_nil] at full
      omega
    obtain ⟨v,arrived⟩ := List.exists_mem_of_ne_nil _ some
    exact ⟨v,rep.wellFormed.inside arrived,by simp [Group.ended,phase]⟩
  | reducing chunks waiter outstanding =>
    obtain ⟨_,_,within⟩ := rep.wellFormed.reducing _ _ _ phase
    have some : outstanding ≠ [] := by
      rintro rfl
      exact active.2 _ _ phase
    obtain ⟨v,member⟩ := List.exists_mem_of_ne_nil _ some
    exact ⟨v,rep.wellFormed.inside (within member),by simp [Group.ended,phase,member]⟩
  | served => exact absurd phase active.1

/-- The enqueue of a worker that has already ended the pass of the full group. -/
theorem push_early_sound (sound : Sound cfg work groups early s) (distinct : work.DistinctKeys cfg)
    (may : s.clients.MayEnqueue work r)
    (full : (groups r.job r.tensorId).arrived.length = work.numWorkersAllocated r.job) :
    Sound cfg work groups
      (setNext early r.job r.tensorId (early r.job r.tensorId ++ [r.machine])) (s.push cfg r) ∧
    ((s.push cfg r).queue.get (r.key cfg)).length ≠ work.numWorkersAllocated r.job := by
  have layer := may.1.2
  obtain ⟨pipelined,_,_,turn⟩ := sound.pipelined.enqueue_early may full
  have queue : s.queue.get (r.key cfg) = ((groups r.job r.tensorId).advance
      (early r.job r.tensorId)).entries r.job r.tensorId :=
    (sound.queue _ _ layer).trans (content_full _ full)
  have pushed : (s.push cfg r).queue.get (r.key cfg) = ((groups r.job r.tensorId).advance
      (early r.job r.tensorId ++ [r.machine])).entries r.job r.tensorId := by
    rw [push_get_same,queue,Clients.nextEntry,turn]
    simp [Group.advance,Group.entries]
  obtain ⟨v,worker,working⟩ := working sound layer full (by have := may.2.1; omega)
  have less := pipelined.early_lt layer worker working
  rw [setNext_same] at less
  constructor
  · have same := setGroup_self groups r.job r.tensorId
    rw [← same] at pipelined ⊢
    apply keep sound distinct layer pipelined (sound.retired.enqueue may)
    case here => exact pushed.trans (content_full _ full).symm
    case elsewhere => exact fun key other => push_get_other other
    case listed =>
      intro pq listed
      rwa [same]
    case waiting => exact id
    case popped => exact fun turn => Iff.rfl
    case active => exact sound.active _ _ layer
    case pqueues => rfl
    case idx => rfl
    case picks => rfl
  · rw [pushed,Group.entries,List.length_map]
    exact less.ne

end push

section answered
variable {chunks waiter w : Nat} {outstanding : List Nat} {g : Group}

theorem Active.answered
    (stays : ¬(outstanding.erase w = [] ∧ Group.Last chunkSize size chunks)) :
    Active (g.answered chunkSize size chunks waiter outstanding w) := by
  unfold Group.answered
  by_cases last : outstanding.erase w = []
  · rw [if_pos last]
    have more : ¬Group.Last chunkSize size chunks := fun also => stays ⟨last,also⟩
    rw [Active,Group.settle_phase,if_neg more]
    exact ⟨Phase.noConfusion,fun _ _ => Phase.noConfusion⟩
  · rw [if_neg last,Active,Group.answer_phase]
    refine ⟨Phase.noConfusion,fun _ _ same => ?_⟩
    injection same with _ _ none
    exact last none

theorem answered_sound (sound : Sound cfg work groups early s) (distinct : work.DistinctKeys cfg)
    (layer : t < (work.model j).length)
    (phase : (groups j t).phase = .reducing chunks waiter outstanding)
    (stays : ¬(outstanding.erase w = [] ∧ Group.Last cfg.chunkSize (work.size j t) chunks))
    {c : Clients} (pipelined : Pipelined work cfg.chunkSize (setGroup groups j t
      ((groups j t).answered cfg.chunkSize (work.size j t) chunks waiter outstanding w)) early c)
    (retired : Retired work c) :
    Sound cfg work (setGroup groups j t
      ((groups j t).answered cfg.chunkSize (work.size j t) chunks waiter outstanding w)) early
      { s with clients := c } := by
  have leaving := Group.answered_leaving cfg.chunkSize (work.size j t) (groups j t) chunks waiter w
    outstanding phase
  have entries : ((groups j t).answered cfg.chunkSize (work.size j t) chunks waiter outstanding
      w).entries j t = (groups j t).entries j t := by
    rw [Group.entries,Group.answered_arrived,Group.answered_turn,Group.entries]
  have waiting : Waiting cfg work ((groups j t).answered cfg.chunkSize (work.size j t) chunks waiter
      outstanding w) j t ↔ Waiting cfg work (groups j t) j t := by
    constructor
    · rintro ⟨layer,some,full,staying⟩
      rw [Group.answered_arrived] at some full
      exact ⟨layer,some,full,leaving.symm.trans staying⟩
    · rintro ⟨layer,some,full,staying⟩
      rw [← Group.answered_arrived cfg.chunkSize (work.size j t) (groups j t) chunks waiter w
        outstanding] at some full
      exact ⟨layer,some,full,leaving.trans staying⟩
  rw [← setNext_self early j t] at pipelined ⊢
  apply keep sound distinct layer pipelined retired
  case here =>
    refine (sound.queue j t layer).trans ?_
    simp only [content,Group.answered_arrived,entries,Group.advance,Group.answered_turn]
  case elsewhere => exact fun _ _ => rfl
  case listed => exact fun pq listed => listed.same waiting entries
  case waiting => exact waiting.mp
  case popped =>
    intro turn
    rw [Popped,Popped,Group.answered_turn,leaving]
  case active => exact Active.answered stays
  case pqueues => rfl
  case idx => rfl
  case picks => rfl

theorem advance_sound (sound : Sound cfg work groups early s) (distinct : work.DistinctKeys cfg)
    (layer : t < (work.model j).length)
    (phase : (groups j t).phase = .reducing chunks waiter outstanding) (member : w ∈ outstanding)
    (last : Group.Last cfg.chunkSize (work.size j t) chunks)
    {c : Clients} (pipelined : Pipelined work cfg.chunkSize
      (setGroup groups j t ((groups j t).advance (early j t))) (setNext early j t []) c)
    (retired : Retired work c) :
    Sound cfg work (setGroup groups j t ((groups j t).advance (early j t))) (setNext early j t [])
      { s with clients := c } := by
  have rep := sound.pipelined.consistent.represents j t layer
  obtain ⟨_,_,within⟩ := rep.wellFormed.reducing _ _ _ phase
  have full : (groups j t).arrived.length = work.numWorkersAllocated j :=
    rep.wellFormed.full (by rw [phase]; exact Phase.noConfusion)
  have leaving : (groups j t).leaving cfg.chunkSize (work.size j t) = true := by
    simp [Group.leaving,phase,last]
  have less : (early j t).length < work.numWorkersAllocated j :=
    sound.pipelined.early_lt layer (rep.wellFormed.inside (within member))
      (by simp [Group.ended,phase,member])
  have before : ¬Waiting cfg work (groups j t) j t := fun waits =>
    Bool.false_ne_true (waits.staying.symm.trans leaving)
  have after : ¬Waiting cfg work ((groups j t).advance (early j t)) j t :=
    not_waiting_of_room less.ne
  apply keep sound distinct layer pipelined retired
  case here =>
    refine (sound.queue j t layer).trans ?_
    rw [content_full _ full,content_room _ less.ne]
  case elsewhere => exact fun _ _ => rfl
  case listed => exact fun pq listed => listed.idle before after
  case waiting => exact fun waits => absurd waits after
  case popped =>
    intro turn
    have order : turn < (groups j t).turn + 1 ↔ turn < (groups j t).turn ∨ turn = (groups j t).turn :=
      Nat.lt_succ_iff_lt_or_eq
    rw [Popped,Popped,leaving]
    simpa [Group.advance,Group.leaving] using order
  case active => exact ⟨Phase.noConfusion,fun _ _ => Phase.noConfusion⟩
  case pqueues => rfl
  case idx => rfl
  case picks => rfl

theorem complete_sound (sound : Sound cfg work groups early s) (distinct : work.DistinctKeys cfg)
    (called : call ∈ s.clients.calls) : ∃ groups' early', Sound cfg work groups' early'
      { s with clients := s.clients.answer cfg.chunkSize call } := by
  obtain ⟨j,t,w,chunks,waiter,outstanding,layer,phase,member,_,pipelined⟩ :=
    sound.pipelined.complete called
  have retired := sound.retired.answer sound.pipelined called
  dsimp only at pipelined
  by_cases ends : outstanding.erase w = [] ∧ Group.Last cfg.chunkSize (work.size j t) chunks
  · rw [Group.complete,if_pos ends] at pipelined
    exact ⟨_,_,advance_sound sound distinct layer phase member ends.2 pipelined retired⟩
  · rw [Group.complete,if_neg ends,setNext_self] at pipelined
    exact ⟨_,_,answered_sound sound distinct layer phase ends pipelined retired⟩

end answered

/-- The full group is pushed to the heap of its job, which is new if the job had none. -/
theorem ready_pqueues (indexed : Indexed s.readyPqueues s.jidToDequeIdx) (r : TensorRef) :
    Indexed (s.ready cfg r).readyPqueues (s.ready cfg r).jidToDequeIdx ∧
    (∀ i pq, i ≠ r.job → ((i,pq) ∈ (s.ready cfg r).readyPqueues ↔ (i,pq) ∈ s.readyPqueues)) ∧
    ∃ pq, (r.job,Heap.push (less s.clients) (s.queue.get (r.key cfg)) pq) ∈
      (s.ready cfg r).readyPqueues ∧
      ((r.job,pq) ∈ s.readyPqueues ∨ pq = [] ∧ ∀ q, (r.job,q) ∉ s.readyPqueues) := by
  cases known : s.jidToDequeIdx r.job with
  | none =>
    have pqueues : (s.ready cfg r).readyPqueues = s.readyPqueues ++
        [(r.job,Heap.push (less s.clients) (s.queue.get (r.key cfg)) [])] := by
      simp [ready,known,List.modify_eq_set_getElem?]
    have idx : (s.ready cfg r).jidToDequeIdx =
        s.jidToDequeIdx.put r.job s.readyPqueues.length := by
      simp [ready,known]
    rw [pqueues,idx]
    refine ⟨indexed.append known _,fun i pq other => ?_,[],?_,.inr ⟨rfl,fun q => indexed.absent known⟩⟩
    · rw [List.mem_append,List.mem_singleton]
      refine or_iff_left fun same => ?_
      cases same
      exact other rfl
    · exact List.mem_append_right _ (List.mem_singleton.mpr rfl)
  | some i =>
    obtain ⟨pq,found⟩ := (indexed.exact r.job i).mp known
    obtain ⟨inside,here⟩ := List.getElem?_eq_some_iff.mp found
    have pqueues : (s.ready cfg r).readyPqueues = s.readyPqueues.set i
        (r.job,Heap.push (less s.clients) (s.queue.get (r.key cfg)) pq) := by
      simp [ready,known,Table.get,List.modify_eq_set_getElem?,found]
    have idx : (s.ready cfg r).jidToDequeIdx = s.jidToDequeIdx := by
      simp [ready,known]
    rw [pqueues,idx]
    refine ⟨indexed.set found _,fun k q other => ?_,pq,?_,.inl (List.mem_of_getElem? found)⟩
    · rw [indexed.mem_set found]
      simp [other]
    · exact (indexed.mem_set found _ _ _).mpr (.inl ⟨rfl,rfl⟩)

theorem ready_sound (sound : Sound cfg work groups early s) (distinct : work.DistinctKeys cfg)
    {r : TensorRef} (may : s.clients.MayEnqueue work r)
    (fills : (groups r.job r.tensorId).arrived.length + 1 = work.numWorkersAllocated r.job) :
    Sound cfg work
      (setGroup groups r.job r.tensorId ((groups r.job r.tensorId).arrive r.machine)) early
      ((s.push cfg r).ready cfg r) ∧
    ((s.push cfg r).queue.get (r.key cfg)).length = work.numWorkersAllocated r.job := by
  have layer := may.1.2
  have before : (groups r.job r.tensorId).arrived.length ≠ work.numWorkersAllocated r.job := by
    omega
  obtain ⟨pipelined,_,turn⟩ := sound.pipelined.enqueue may (by omega)
  have phase := sound.pipelined.gathering_of_room layer (by omega)
  have nobody := sound.pipelined.early_nil layer phase
  have queue : s.queue.get (r.key cfg) = (groups r.job r.tensorId).entries r.job r.tensorId :=
    (sound.queue _ _ layer).trans (content_room _ before)
  have pushed : (s.push cfg r).queue.get (r.key cfg) =
      ((groups r.job r.tensorId).arrive r.machine).entries r.job r.tensorId := by
    rw [push_get_same,queue,entries_arrive,Clients.nextEntry,turn]
  have full : ((groups r.job r.tensorId).arrive r.machine).arrived.length =
      work.numWorkersAllocated r.job := by
    rw [Group.arrive_arrived,List.length_append,List.length_singleton]
    exact fills
  have waits : Waiting cfg work ((groups r.job r.tensorId).arrive r.machine) r.job r.tensorId :=
    ⟨layer,by simp,full,by simp [Group.leaving,phase]⟩
  have indices : Indexed (s.push cfg r).readyPqueues (s.push cfg r).jidToDequeIdx := sound.indexed
  obtain ⟨indexed,others,pq,member,origin⟩ := @ready_pqueues cfg _ indices r
  have old : Listed cfg work (groups r.job) r.job pq := by
    rcases origin with known | ⟨rfl,absent⟩
    · exact sound.listed _ _ known
    · refine ⟨List.nodup_nil,fun tensors => iff_of_false List.not_mem_nil ?_⟩
      rintro ⟨l,also,rfl⟩
      obtain ⟨q,known⟩ := sound.present _ _ also
      exact absent q known
  constructor
  · rw [← setNext_self early r.job r.tensorId] at pipelined ⊢
    apply relayer sound distinct layer pipelined (sound.retired.enqueue may)
    case here =>
      rw [content_full _ full,nobody]
      exact Table.get_erase_same _ _
    case elsewhere =>
      intro key other
      exact (Table.get_erase_other _ other).trans (push_get_other other)
    case indexed => exact indexed
    case others => exact others
    case listed =>
      intro q also
      rw [← indexed.unique member also,pushed]
      exact old.insert (not_waiting_of_room before) waits (Heap.push_perm _ _ _)
    case present => exact fun _ => ⟨_,member⟩
    case active => exact (sound.active _ _ layer).arrive _
    case picked => exact sound.picked
    case foreign => exact fun _ _ => rfl
    case popped => exact sound.popped _ _ layer
  · rw [pushed,Group.entries,List.length_map]
    exact full

/-- When a worker may tear the job down, every group of the job was popped. -/
theorem not_waiting_of_mayFinish (sound : Sound cfg work groups early s)
    (may : s.clients.MayFinish work w j) : ¬Waiting cfg work (groups j t) j t := by
  intro waits
  obtain ⟨worker,_,all⟩ := may
  have rep := sound.pipelined.consistent.represents j t waits.layer
  have iter : (s.clients.tensor ⟨w,j,t⟩).iter = _ := rep.iter w worker
  have left := sound.pipelined.turnsLeft_of_arrived waits.layer waits.some
  have most := (all t waits.layer).2
  have working : (groups j t).ended cfg.chunkSize (work.size j t) w = false := by
    have staying := waits.staying
    cases phase : (groups j t).phase with
    | gathering chunks => simp [Group.ended,phase]
    | served => simp [Group.leaving,phase] at staying
    | reducing chunks waiter outstanding =>
      simp only [Group.leaving,phase,decide_eq_false_iff_not] at staying
      simp [Group.ended,phase,staying]
  rw [working,Bool.toNat_false] at iter
  omega

theorem pqueue_of_mayFinish (sound : Sound cfg work groups early s)
    (may : s.clients.MayFinish work w j) (member : (j,pq) ∈ s.readyPqueues) : pq = [] := by
  apply List.eq_nil_iff_forall_not_mem.mpr
  intro tensors inside
  obtain ⟨t,waits,_⟩ := ((sound.listed j pq member).2 tensors).mp inside
  exact not_waiting_of_mayFinish sound may waits

theorem finish_sound (sound : Sound cfg work groups early s)
    (may : s.clients.MayFinish work w j) : Sound cfg work groups early
      ({ s with clients := s.clients.finish w j }.cleanupForJob j) where
  pipelined := sound.pipelined.finish w j
  retired := sound.retired.finish may
  queue := sound.queue
  indexed := sound.indexed.cleanup j
  listed i pq member := sound.listed i pq (List.mem_of_mem_filter member)
  present i t waits := by
    obtain ⟨pq,member⟩ := sound.present i t waits
    refine ⟨pq,List.mem_filter.mpr ⟨member,?_⟩⟩
    have other : i ≠ j := by
      rintro rfl
      exact not_waiting_of_mayFinish sound may waits
    simpa using other
  active := sound.active
  picked := sound.picked
  popped := sound.popped

end DeficitRoundRobin
end CloudSim
