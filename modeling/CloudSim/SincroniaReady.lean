import CloudSim.Pipeline
import CloudSim.Sincronia
import Mathlib.Data.List.Nodup

/-! The queues of `Sincronia`: a finished group stays in `queue` until it is popped, and the next
group may already be queued behind it. -/
namespace CloudSim

namespace Sincronia

def content (g : Group) (ws : List Nat) (j t : Nat) : List Entry :=
  g.entries j t ++ (g.advance ws).entries j t

/-- One tensor of every worker of a job, all of one iteration and equally far reduced. -/
def Uniform (cfg : Config) (work : Workload) (serve : Serve) : Prop :=
  ∃ j t turn reduced, t < (work.model j).length ∧ serve.key = cfg.getKey j t ∧
    serve.tensors.Perm ((work.widsAllocated j).map fun w => (⟨⟨w,j,t⟩,turn⟩,turn,reduced))

/-- The last chunk of each entry of a group has completed. -/
def Finished (work : Workload) (c : Clients) (entries : List Entry) : Prop :=
  work.WholeGroup entries ∧ ∀ e ∈ entries, e ∈ c.served

/-- The queues, the marks of finished tensors and the history agree with the groups. -/
structure Sound (cfg : Config) (work : Workload) (groups : Nat → Nat → Group)
    (early : Nat → Nat → List Nat) (s : Sincronia) : Prop where
  pipelined : Pipelined work cfg.chunkSize groups early s.clients
  retired : Retired work s.clients
  queue : ∀ j t, t < (work.model j).length →
    s.queue.get (cfg.getKey j t) = content (groups j t) (early j t) j t
  erasable : ∀ j t, t < (work.model j).length → (u32 (cfg.getKey j t) ∈ s.canErase ↔
    (groups j t).leaving cfg.chunkSize (work.size j t) = true)
  active : ∀ j t, t < (work.model j).length → ∀ chunks waiter,
    (groups j t).phase ≠ .reducing chunks waiter []
  served : ∀ serve ∈ s.serves, Uniform cfg work serve
  pops : ∀ entries ∈ s.pops, Finished work s.clients entries
  popped : ∀ j t, t < (work.model j).length → ∀ w ∈ work.widsAllocated j, ∀ turn,
    s.pops.flatten.count ⟨⟨w,j,t⟩,turn⟩ = if turn < (groups j t).turn then 1 else 0

/-- A ready queue has an entry for each complete group in the queues of its job. -/
structure Counted (cfg : Config) (work : Workload) (queue : Table Nat (List Entry)) (j : Nat)
    (pq : List TensorRef) : Prop where
  owned : ∀ r ∈ pq, r.job = j ∧ r.tensorId < (work.model j).length
  counts : ∀ t < (work.model j).length, pq.countP (fun r => r.tensorId = t) =
    (queue.get (cfg.getKey j t)).length / work.numWorkersAllocated j

/-- The ready queues count the complete groups of the jobs that no worker has torn down. -/
structure Heaped (cfg : Config) (work : Workload) (s : Sincronia) : Prop where
  distinct : (s.readyPqueues.map Prod.fst).Nodup
  counted : ∀ j pq, (j,pq) ∈ s.readyPqueues → Counted cfg work s.queue j pq
  present : ∀ j, (∀ w ∈ work.widsAllocated j, s.clients.finished w j = false) →
    ∀ t < (work.model j).length,
      0 < (s.queue.get (cfg.getKey j t)).length / work.numWorkersAllocated j →
      ∃ pq, (j,pq) ∈ s.readyPqueues

variable {cfg : Config} {topo : Topology} {work : Workload} {groups : Nat → Nat → Group}
  {early : Nat → Nat → List Nat} {s : Sincronia} {j t : Nat}

theorem initial_sound (cfg : Config) (work : Workload) :
    Sound cfg work (fun _ _ => {}) (fun _ _ => []) (initial work) where
  pipelined := Pipelined.initial work cfg.chunkSize
  retired _ _ done := by cases done
  queue _ _ _ := rfl
  erasable _ _ _ := iff_of_false (Finset.notMem_empty _) Bool.false_ne_true
  active _ _ _ _ _ := Phase.noConfusion
  served _ member := by cases member
  pops _ member := by cases member
  popped _ _ _ _ _ turn := (if_neg (Nat.not_lt_zero turn)).symm

theorem initial_heaped (cfg : Config) (work : Workload) : Heaped cfg work (initial work) where
  distinct := List.nodup_nil
  counted _ _ member := by cases member
  present j _ t _ some := by
    change 0 < 0 / work.numWorkersAllocated j at some
    simp at some

theorem Finished.mono {c d : Clients} (finished : Finished work c entries)
    (served : ∀ e ∈ c.served, e ∈ d.served) : Finished work d entries :=
  ⟨finished.1,fun e member => served e (finished.2 e member)⟩

theorem relayer (sound : Sound cfg work groups early s) (distinct : work.DistinctCutKeys cfg)
    (layer : t < (work.model j).length) {g : Group} {ws : List Nat} {s' : Sincronia}
    (pipelined : Pipelined work cfg.chunkSize (setGroup groups j t g) (setNext early j t ws)
      s'.clients)
    (retired : Retired work s'.clients)
    (here : s'.queue.get (cfg.getKey j t) = content g ws j t)
    (elsewhere : ∀ key, key ≠ cfg.getKey j t → s'.queue.get key = s.queue.get key)
    (erasable : u32 (cfg.getKey j t) ∈ s'.canErase ↔
      g.leaving cfg.chunkSize (work.size j t) = true)
    (others : ∀ key, key ≠ u32 (cfg.getKey j t) → (key ∈ s'.canErase ↔ key ∈ s.canErase))
    (active : ∀ chunks waiter, g.phase ≠ .reducing chunks waiter [])
    (served : ∀ serve ∈ s'.serves, Uniform cfg work serve)
    (pops : ∀ entries ∈ s'.pops, Finished work s'.clients entries)
    (foreign : ∀ e, ¬(e.tensor.job = j ∧ e.tensor.tensorId = t) →
      s'.pops.flatten.count e = s.pops.flatten.count e)
    (popped : ∀ w ∈ work.widsAllocated j, ∀ turn,
      s'.pops.flatten.count ⟨⟨w,j,t⟩,turn⟩ = if turn < g.turn then 1 else 0) :
    Sound cfg work (setGroup groups j t g) (setNext early j t ws) s' := by
  constructor
  case pipelined => exact pipelined
  case retired => exact retired
  case queue =>
    intro i l inside
    by_cases same : i = j ∧ l = t
    · obtain ⟨rfl,rfl⟩ := same
      rw [setGroup_same,setNext_same,here]
    · rw [setGroup_other same,setNext_other same,elsewhere]
      · exact sound.queue i l inside
      · exact fun equal => same (distinct.distinctKeys i l j t inside layer equal)
  case erasable =>
    intro i l inside
    by_cases same : i = j ∧ l = t
    · obtain ⟨rfl,rfl⟩ := same
      rw [setGroup_same,erasable]
    · rw [setGroup_other same,others]
      · exact sound.erasable i l inside
      · exact fun equal => same (distinct i l j t inside layer equal)
  case active =>
    intro i l inside
    by_cases same : i = j ∧ l = t
    · obtain ⟨rfl,rfl⟩ := same
      rwa [setGroup_same]
    · rw [setGroup_other same]
      exact sound.active i l inside
  case served => exact served
  case pops => exact pops
  case popped =>
    intro i l inside w member turn
    by_cases same : i = j ∧ l = t
    · obtain ⟨rfl,rfl⟩ := same
      simp only [setGroup_same]
      exact popped w member turn
    · simp only [setGroup_other same]
      exact (foreign _ same).trans (sound.popped i l inside w member turn)

section push
variable {r : TensorRef}

theorem push_get_same : (s.push cfg r).queue.get (r.key cfg) =
    s.queue.get (r.key cfg) ++ [s.clients.nextEntry r] := by simp [push]

theorem push_get_other {key : Nat} (other : key ≠ r.key cfg) :
    (s.push cfg r).queue.get key = s.queue.get key := by simp [push,other]

theorem content_room (pipe : Pipelined work cfg.chunkSize groups early c)
    (layer : t < (work.model j).length)
    (room : (groups j t).arrived.length < work.numWorkersAllocated j) :
    content (groups j t) (early j t) j t = (groups j t).entries j t := by
  rw [content,pipe.early_nil layer (pipe.gathering_of_room layer room)]
  exact List.append_nil _

theorem push_sound (sound : Sound cfg work groups early s) (distinct : work.DistinctCutKeys cfg)
    (may : s.clients.MayEnqueue work r) :
    ∃ g ws, Sound cfg work (setGroup groups r.job r.tensorId g) (setNext early r.job r.tensorId ws)
      (s.push cfg r) ∧ (g = groups r.job r.tensorId ∨
        (groups r.job r.tensorId).arrived.length < work.numWorkersAllocated r.job) := by
  have layer := may.1.2
  have rep := sound.pipelined.consistent.represents _ _ layer
  rcases Nat.lt_or_eq_of_le rep.wellFormed.arrived_le with room | full
  · obtain ⟨pipelined,_,turn⟩ := sound.pipelined.enqueue may room
    have nobody := sound.pipelined.early_nil layer (sound.pipelined.gathering_of_room layer room)
    rw [← setNext_self early r.job r.tensorId] at pipelined
    refine ⟨(groups r.job r.tensorId).arrive r.machine,early r.job r.tensorId,?_,.inr room⟩
    apply relayer sound distinct layer pipelined (sound.retired.enqueue may)
    case here =>
      refine push_get_same.trans ?_
      have queue : s.queue.get (r.key cfg) = _ :=
        (sound.queue _ _ layer).trans (content_room sound.pipelined layer room)
      rw [queue,content,nobody,Clients.nextEntry,turn]
      simp [Group.entries,Group.advance]
    case elsewhere => exact fun key other => push_get_other other
    case erasable => exact sound.erasable _ _ layer
    case others => exact fun _ _ => Iff.rfl
    case active => exact sound.active _ _ layer
    case served => exact sound.served
    case pops => exact sound.pops
    case foreign => exact fun _ _ => rfl
    case popped => exact sound.popped _ _ layer
  · obtain ⟨pipelined,_,_,turn⟩ := sound.pipelined.enqueue_early may full
    rw [← setGroup_self groups r.job r.tensorId] at pipelined
    refine ⟨groups r.job r.tensorId,early r.job r.tensorId ++ [r.machine],?_,.inl rfl⟩
    apply relayer sound distinct layer pipelined (sound.retired.enqueue may)
    case here =>
      refine push_get_same.trans ?_
      have queue : s.queue.get (r.key cfg) = _ := sound.queue _ _ layer
      rw [queue,Clients.nextEntry,turn]
      simp [content,Group.entries,Group.advance]
    case elsewhere => exact fun key other => push_get_other other
    case erasable => exact sound.erasable _ _ layer
    case others => exact fun _ _ => Iff.rfl
    case active => exact sound.active _ _ layer
    case served => exact sound.served
    case pops => exact sound.pops
    case foreign => exact fun _ _ => rfl
    case popped => exact sound.popped _ _ layer

/-- While a tensor can be enqueued, no worker has torn the job down. -/
theorem live_of_mayEnqueue (sound : Sound cfg work groups early s)
    (may : s.clients.MayEnqueue work r) : ∀ v ∈ work.widsAllocated r.job,
      s.clients.finished v r.job = false := by
  intro v worker
  by_contra done
  obtain ⟨⟨known,layer⟩,_,left,_⟩ := may
  obtain ⟨_,all⟩ := sound.retired v r.job (by simpa using done)
  have rep := sound.pipelined.consistent.represents _ _ layer
  have most := (all _ layer).2
  have iter : (s.clients.tensor ⟨v,r.job,r.tensorId⟩).iter = _ := rep.iter v worker
  have enqueued := sound.pipelined.enqueued_eq layer known
  change s.clients.enqueued r = _ at enqueued
  cases ended : (groups r.job r.tensorId).ended cfg.chunkSize (work.size r.job r.tensorId) v with
  | false =>
    rw [ended,Bool.toNat_false] at iter
    omega
  | true =>
    have full := rep.wellFormed.full fun phase => by simp [Group.ended,phase] at ended
    rw [ended,Bool.toNat_true] at iter
    rw [if_pos (rep.mem_arrived full known)] at enqueued
    omega

theorem length_push (distinct : work.DistinctCutKeys cfg) (may : s.clients.MayEnqueue work r)
    (layer : t < (work.model j).length) :
    ((s.push cfg r).queue.get (cfg.getKey j t)).length = (s.queue.get (cfg.getKey j t)).length +
      if j = r.job ∧ t = r.tensorId then 1 else 0 := by
  by_cases same : j = r.job ∧ t = r.tensorId
  · obtain ⟨rfl,rfl⟩ := same
    change ((s.push cfg r).queue.get (r.key cfg)).length = _
    rw [push_get_same]
    simp [TensorRef.key]
  · rw [push_get_other,if_neg same]
    · rfl
    · exact fun equal => same (distinct.distinctKeys _ _ _ _ layer may.1.2 equal)

theorem push_heaped (heaped : Heaped cfg work s) (distinct : work.DistinctCutKeys cfg)
    (may : s.clients.MayEnqueue work r)
    (rest : ((s.push cfg r).queue.get (r.key cfg)).length % work.numWorkersAllocated r.job ≠ 0) :
    Heaped cfg work (s.push cfg r) := by
  have same (i l : Nat) (layer : l < (work.model i).length) :
      ((s.push cfg r).queue.get (cfg.getKey i l)).length / work.numWorkersAllocated i =
        (s.queue.get (cfg.getKey i l)).length / work.numWorkersAllocated i := by
    have length := length_push distinct may layer
    by_cases here : i = r.job ∧ l = r.tensorId
    · obtain ⟨rfl,rfl⟩ := here
      rw [if_pos ⟨rfl,rfl⟩] at length
      rw [length]
      apply Nat.succ_div_of_not_dvd
      intro whole
      apply rest
      change ((s.push cfg r).queue.get (cfg.getKey r.job r.tensorId)).length % _ = 0
      rw [length]
      exact Nat.mod_eq_zero_of_dvd whole
    · rw [length,if_neg here,Nat.add_zero]
  constructor
  case distinct => exact heaped.distinct
  case counted =>
    intro i pq member
    obtain ⟨owned,counts⟩ := heaped.counted i pq member
    exact ⟨owned,fun l layer => (counts l layer).trans (same i l layer).symm⟩
  case present =>
    intro i live l layer some
    rw [same i l layer] at some
    exact heaped.present i live l layer some

/-- The last tensor of a complete group enters the ready queue of its job. -/
theorem Counted.push (counted : Counted cfg work s.queue r.job pq)
    (distinct : work.DistinctCutKeys cfg) (may : s.clients.MayEnqueue work r)
    (whole : ((s.push cfg r).queue.get (r.key cfg)).length % work.numWorkersAllocated r.job = 0)
    (perm : q.Perm (r :: pq)) : Counted cfg work (s.push cfg r).queue r.job q := by
  constructor
  · intro i member
    rcases List.mem_cons.mp (perm.mem_iff.mp member) with rfl | old
    · exact ⟨rfl,may.1.2⟩
    · exact counted.owned i old
  · intro l layer
    have length := length_push distinct may layer
    rw [perm.countP_eq,List.countP_cons,counted.counts l layer]
    by_cases here : l = r.tensorId
    · subst here
      rw [if_pos ⟨rfl,rfl⟩] at length
      have divides := Nat.dvd_of_mod_eq_zero whole
      change _ ∣ ((s.push cfg r).queue.get (cfg.getKey r.job r.tensorId)).length at divides
      rw [length] at divides ⊢
      rw [Nat.succ_div_of_dvd divides]
      simp
    · have other : ¬r.tensorId = l := fun same => here same.symm
      rw [length]
      simp [here,other]

theorem ready_pqueues (once : (s.readyPqueues.map Prod.fst).Nodup) (r : TensorRef) :
    ((s.ready r).readyPqueues.map Prod.fst).Nodup ∧
    (∀ i pq, i ≠ r.job → ((i,pq) ∈ (s.ready r).readyPqueues ↔ (i,pq) ∈ s.readyPqueues)) ∧
    ∃ pq, (r.job,Heap.push s.clients.customCompare r pq) ∈ (s.ready r).readyPqueues ∧
      ((r.job,pq) ∈ s.readyPqueues ∨ pq = [] ∧ ∀ q, (r.job,q) ∉ s.readyPqueues) := by
  by_cases known : (s.readyPqueues.any fun entry => entry.1 = r.job) = true
  · have pqueues : (s.ready r).readyPqueues = s.readyPqueues.map fun entry =>
        if entry.1 = r.job then (entry.1,Heap.push s.clients.customCompare r entry.2) else entry :=
      if_pos known
    obtain ⟨⟨j,pq⟩,member,same⟩ := List.any_eq_true.mp known
    have same : j = r.job := of_decide_eq_true same
    subst same
    rw [pqueues]
    refine ⟨?_,?_,pq,?_,.inl member⟩
    · have ids : (s.readyPqueues.map fun entry => if entry.1 = r.job then
          (entry.1,Heap.push s.clients.customCompare r entry.2) else entry).map Prod.fst =
          s.readyPqueues.map Prod.fst := by
        rw [List.map_map]
        apply List.map_congr_left
        intro entry _
        dsimp only [Function.comp_apply]
        split <;> rfl
      rw [ids]
      exact once
    · intro i q other
      rw [List.mem_map]
      constructor
      · rintro ⟨entry,inside,equal⟩
        split at equal
        · rename_i this
          exact absurd ((congrArg Prod.fst equal).symm.trans this) other
        · exact equal ▸ inside
      · intro inside
        exact ⟨(i,q),inside,if_neg other⟩
    · exact List.mem_map.mpr ⟨_,member,if_pos rfl⟩
  · have pqueues : (s.ready r).readyPqueues = s.readyPqueues ++ [(r.job,[r])] := if_neg known
    have absent : ∀ q, (r.job,q) ∉ s.readyPqueues := fun q member =>
      known (List.any_eq_true.mpr ⟨_,member,decide_eq_true rfl⟩)
    rw [pqueues]
    refine ⟨?_,?_,[],?_,.inr ⟨rfl,absent⟩⟩
    · rw [List.map_append]
      apply List.nodup_append.mpr
      refine ⟨once,List.nodup_singleton _,?_⟩
      intro i member k same
      rw [List.mem_singleton.mp same]
      rintro rfl
      obtain ⟨⟨_,q⟩,inside,rfl⟩ := List.mem_map.mp member
      exact absent q inside
    · intro i q other
      rw [List.mem_append,List.mem_singleton]
      refine or_iff_left fun same => ?_
      cases same
      exact other rfl
    · exact List.mem_append_right _ (List.mem_singleton.mpr rfl)

theorem ready_heaped (sound : Sound cfg work groups early s) (heaped : Heaped cfg work s)
    (distinct : work.DistinctCutKeys cfg) (may : s.clients.MayEnqueue work r)
    (whole : ((s.push cfg r).queue.get (r.key cfg)).length % work.numWorkersAllocated r.job = 0) :
    Heaped cfg work ((s.push cfg r).ready r) := by
  have ids : ((s.push cfg r).readyPqueues.map Prod.fst).Nodup := heaped.distinct
  obtain ⟨nodup,others,pq,member,origin⟩ := ready_pqueues ids r
  have old : Counted cfg work s.queue r.job pq := by
    rcases origin with known | ⟨rfl,absent⟩
    · exact heaped.counted _ _ known
    · refine ⟨fun _ member => (by cases member),fun l layer => ?_⟩
      by_contra some
      obtain ⟨q,known⟩ := heaped.present r.job (live_of_mayEnqueue sound may) l layer
        (Nat.pos_of_ne_zero (Ne.symm some))
      exact absent q known
  have elsewhere (i l : Nat) (other : i ≠ r.job) (layer : l < (work.model i).length) :
      ((s.push cfg r).queue.get (cfg.getKey i l)).length =
        (s.queue.get (cfg.getKey i l)).length := by
    rw [length_push distinct may layer,if_neg fun both => other both.1,Nat.add_zero]
  constructor
  case distinct => exact nodup
  case counted =>
    intro i q also
    by_cases same : i = r.job
    · subst same
      have equal := List.inj_on_of_nodup_map nodup also member rfl
      obtain rfl : q = _ := congrArg Prod.snd equal
      exact old.push distinct may whole (Heap.push_perm _ _ _)
    · obtain ⟨owned,counts⟩ := heaped.counted i q ((others i q same).mp also)
      refine ⟨owned,fun l layer => (counts l layer).trans ?_⟩
      change _ = ((s.push cfg r).queue.get (cfg.getKey i l)).length / _
      rw [elsewhere i l same layer]
  case present =>
    intro i live l layer some
    by_cases same : i = r.job
    · subst same
      exact ⟨_,member⟩
    · change 0 < ((s.push cfg r).queue.get (cfg.getKey i l)).length / _ at some
      rw [elsewhere i l same layer] at some
      obtain ⟨q,known⟩ := heaped.present i live l layer some
      exact ⟨q,(others i q same).mpr known⟩

end push

/-- The group of the layer is complete, and none of its chunks is in progress. -/
structure Waiting (work : Workload) (g : Group) (j t : Nat) : Prop where
  layer : t < (work.model j).length
  some : g.arrived ≠ []
  full : g.arrived.length = work.numWorkersAllocated j
  resting : ∃ chunks, g.phase = .gathering chunks

/-- A call ends; the group stays in its queue, also after its last round. -/
theorem complete_sound (sound : Sound cfg work groups early s) (distinct : work.DistinctCutKeys cfg)
    (called : call ∈ s.clients.calls) : ∃ j t g, ¬Waiting work (groups j t) j t ∧
      Sound cfg work (setGroup groups j t g) early
        { s with clients := s.clients.answer cfg.chunkSize call } := by
  obtain ⟨j,t,w,chunks,waiter,outstanding,layer,phase,member,_,pipelined⟩ :=
    sound.pipelined.answer called
  have retired := sound.retired.answer sound.pipelined called
  refine ⟨j,t,(groups j t).answered cfg.chunkSize (work.size j t) chunks waiter outstanding w,?_,?_⟩
  · rintro ⟨_,_,_,chunks',resting⟩
    rw [phase] at resting
    cases resting
  rw [← setNext_self early j t] at pipelined ⊢
  apply relayer sound distinct layer pipelined retired
  case here =>
    refine (sound.queue j t layer).trans ?_
    simp only [content,Group.entries,Group.advance,Group.answered_arrived,Group.answered_turn]
  case elsewhere => exact fun _ _ => rfl
  case erasable =>
    rw [Group.answered_leaving _ _ _ _ _ _ _ phase]
    exact sound.erasable j t layer
  case others => exact fun _ _ => Iff.rfl
  case active =>
    intro chunks' waiter' same
    unfold Group.answered at same
    by_cases last : outstanding.erase w = []
    · rw [if_pos last,Group.settle_phase] at same
      split at same <;> cases same
    · rw [if_neg last,Group.answer_phase] at same
      injection same with _ _ none
      exact last none
  case served => exact sound.served
  case pops =>
    exact fun entries member => (sound.pops entries member).mono fun e known =>
      Clients.mem_answer_served _ _ _ known
  case foreign => exact fun _ _ => rfl
  case popped =>
    rw [Group.answered_turn]
    exact sound.popped j t layer

theorem finish_sound (sound : Sound cfg work groups early s) (may : s.clients.MayFinish work w j) :
    Sound cfg work groups early ({ s with clients := s.clients.finish w j }.cleanupForJob j) where
  pipelined := sound.pipelined.finish w j
  retired := sound.retired.finish may
  queue := sound.queue
  erasable := sound.erasable
  active := sound.active
  served := sound.served
  pops := sound.pops
  popped := sound.popped

/-- The ready queue of a finished job is erased, whatever is left in it. -/
theorem finish_heaped (heaped : Heaped cfg work s) (may : s.clients.MayFinish work w j) :
    Heaped cfg work ({ s with clients := s.clients.finish w j }.cleanupForJob j) where
  distinct := (List.filter_sublist.map _).nodup heaped.distinct
  counted i pq member := heaped.counted i pq (List.mem_of_mem_filter member)
  present i live t layer some := by
    have other : i ≠ j := by
      rintro rfl
      have done := live w may.1
      simp [cleanupForJob,Clients.finish] at done
    have before (v : Nat) (worker : v ∈ work.widsAllocated i) : s.clients.finished v i = false := by
      simpa [cleanupForJob,Clients.finish,other] using live v worker
    obtain ⟨pq,member⟩ := heaped.present i before t layer some
    exact ⟨pq,List.mem_filter.mpr ⟨member,by simpa using other⟩⟩

def Pending (cfg : Config) (work : Workload) (groups : Nat → Nat → Group) (key : Nat) : Prop :=
  ∃ j t, Waiting work (groups j t) j t ∧ key = cfg.getKey j t

theorem Pending.setGroup {g : Group} (pending : Pending cfg work groups key)
    (other : ¬(Waiting work (groups j t) j t ∧ key = cfg.getKey j t)) :
    Pending cfg work (setGroup groups j t g) key := by
  obtain ⟨i,l,waits,rfl⟩ := pending
  refine ⟨i,l,?_,rfl⟩
  rw [setGroup_other]
  · exact waits
  · rintro ⟨rfl,rfl⟩
    exact other ⟨waits,rfl⟩

theorem Waiting.queue (waits : Waiting work (groups j t) j t)
    (sound : Sound cfg work groups early s) :
    s.queue.get (cfg.getKey j t) = (groups j t).entries j t := by
  obtain ⟨chunks,phase⟩ := waits.resting
  refine (sound.queue j t waits.layer).trans ?_
  rw [content,sound.pipelined.early_nil waits.layer phase]
  exact List.append_nil _

section launch
variable {id chunks : Nat}

theorem served_uniform {c : Clients} (pipe : Pipelined work cfg.chunkSize groups early c)
    (waits : Waiting work (groups j t) j t) (phase : (groups j t).phase = .gathering chunks) :
    Uniform cfg work ⟨cfg.getKey j t,((groups j t).entries j t).map fun entry =>
      (entry,(c.tensor entry.tensor).iter,(c.tensor entry.tensor).allreducedSize)⟩ :=
  ⟨j,t,(groups j t).turn,chunks * cfg.chunkSize,waits.layer,rfl,
    pipe.entries_uniform waits.layer phase waits.full⟩

theorem launch_sound (sound : Sound cfg work groups early s) (distinct : work.DistinctCutKeys cfg)
    (waits : Waiting work (groups j t) j t) (phase : (groups j t).phase = .gathering chunks)
    {s' : Sincronia} (clients : s'.clients = s.clients.allreduce id ((groups j t).entries j t))
    (queue : s'.queue = s.queue) (pops : s'.pops = s.pops)
    (erasable : u32 (cfg.getKey j t) ∈ s'.canErase ↔
      Group.Last cfg.chunkSize (work.size j t) chunks)
    (others : ∀ key, key ≠ u32 (cfg.getKey j t) → (key ∈ s'.canErase ↔ key ∈ s.canErase))
    (served : ∀ serve ∈ s'.serves, Uniform cfg work serve) :
    Sound cfg work (setGroup groups j t ((groups j t).launch chunks id)) early s' := by
  have pipelined := sound.pipelined.launch waits.layer phase waits.full id
  rw [← clients] at pipelined
  rw [← setNext_self early j t] at pipelined ⊢
  apply relayer sound distinct waits.layer pipelined
  case retired => rw [clients]; exact sound.retired
  case here => rw [queue]; exact sound.queue j t waits.layer
  case elsewhere => exact fun _ _ => by rw [queue]
  case erasable =>
    rw [erasable]
    simp [Group.leaving]
  case others => exact others
  case active =>
    intro _ _ same
    injection same with _ _ none
    exact waits.some none
  case served => exact served
  case pops => rw [pops,clients]; exact sound.pops
  case foreign => intro _ _; rw [pops]
  case popped =>
    rw [pops]
    exact sound.popped j t waits.layer

end launch

/-- The finished group leaves the queue and the next one takes its place. -/
theorem promote_sound (sound : Sound cfg work groups early s) (distinct : work.DistinctCutKeys cfg)
    (layer : t < (work.model j).length) (phase : (groups j t).phase = .served) :
    Sound cfg work (setGroup groups j t ((groups j t).advance (early j t))) (setNext early j t [])
      { s with
        canErase := s.canErase.erase (u32 (cfg.getKey j t))
        queue := s.queue.put (cfg.getKey j t)
          ((s.queue.get (cfg.getKey j t)).drop (work.numWorkersAllocated j))
        pops := s.pops ++ [(s.queue.get (cfg.getKey j t)).take (work.numWorkersAllocated j)] } := by
  have rep := sound.pipelined.consistent.represents j t layer
  have full : (groups j t).arrived.length = work.numWorkersAllocated j :=
    rep.wellFormed.full (by rw [phase]; exact Phase.noConfusion)
  have length : ((groups j t).entries j t).length = work.numWorkersAllocated j := by
    rw [Group.entries,List.length_map,full]
  have front : (s.queue.get (cfg.getKey j t)).take (work.numWorkersAllocated j) =
      (groups j t).entries j t := by
    rw [sound.queue j t layer,content,List.take_left' length]
  have behind : (s.queue.get (cfg.getKey j t)).drop (work.numWorkersAllocated j) =
      ((groups j t).advance (early j t)).entries j t := by
    rw [sound.queue j t layer,content,List.drop_left' length]
  rw [front,behind]
  apply relayer sound distinct layer
  case pipelined => exact sound.pipelined.promote layer phase
  case retired => exact sound.retired
  case here =>
    rw [Table.get_put_same]
    exact (List.append_nil _).symm
  case elsewhere => exact fun key other => Table.get_put_other _ other _
  case erasable => simp [Group.advance,Group.leaving]
  case others =>
    intro key other
    simp [other]
  case active => exact fun _ _ => Phase.noConfusion
  case served => exact sound.served
  case pops =>
    intro entries member
    rcases List.mem_append.mp member with old | new
    · exact sound.pops entries old
    · rw [List.mem_singleton.mp new]
      refine ⟨⟨j,t,(groups j t).turn,layer,
        (Group.full_of_length _ _ rep.wellFormed full).map _⟩,fun e inside => ?_⟩
      obtain ⟨w,arrived,rfl⟩ := List.mem_map.mp inside
      exact rep.mem_served (rep.wellFormed.inside arrived) (by simp [Group.ended,phase])
  case foreign =>
    intro e other
    have absent : e ∉ (groups j t).entries j t := fun member =>
      other ⟨(Group.mem_entries.mp member).1,(Group.mem_entries.mp member).2.1⟩
    rw [List.flatten_append,List.count_append,List.flatten_singleton,List.count_eq_zero.mpr absent,
      Nat.add_zero]
  case popped =>
    intro w worker turn
    have own : ((groups j t).entries j t).count ⟨⟨w,j,t⟩,turn⟩ =
        if turn = (groups j t).turn then 1 else 0 := by
      rw [Group.count_entries rep.wellFormed.distinct]
      simp [Group.mem_entries,rep.mem_arrived full worker]
    rw [List.flatten_append,List.count_append,List.flatten_singleton,own,
      sound.popped j t layer w worker]
    change _ = if turn < (groups j t).turn + 1 then 1 else 0
    split_ifs <;> omega

end Sincronia
end CloudSim
