import CloudSim.Awaited
import CloudSim.SincroniaReady
import CloudSim.WakeUp

/-! The bookkeeping of `Sincronia`: what is queued under a key when the loop serves it, and what a
pop removes. -/
namespace CloudSim

namespace Sincronia
variable {cfg : Config} {topo : Topology} {work : Workload} {groups : Nat → Nat → Group}
  {early : Nat → Nat → List Nat} {s : Sincronia} {j t : Nat}

/-- While no call is in progress, the last round of every group is over. -/
theorem rests (sound : Sound cfg work groups early s) (idle : s.clients.calls = [])
    (layer : t < (work.model j).length) :
    (∃ chunks, (groups j t).phase = .gathering chunks) ∨ (groups j t).phase = .served := by
  have rep := sound.pipelined.consistent.represents j t layer
  cases phase : (groups j t).phase with
  | gathering chunks => exact .inl ⟨chunks,rfl⟩
  | served => exact .inr rfl
  | reducing chunks waiter outstanding =>
    have calls : (s.clients.calls.filter (Call.ofLayer j t)).Perm _ := rep.calls
    rw [idle,List.filter_nil,Group.calls,phase] at calls
    have none := List.map_eq_nil_iff.mp calls.nil_eq.symm
    exact absurd (none ▸ phase) (sound.active j t layer chunks waiter)

/-- Cleaning out the ready queues of some jobs touches neither the clients nor waiting groups. -/
structure Kept (cfg : Config) (work : Workload) (ids : List Nat) (groups groups' : Nat → Nat → Group)
    (s s' : Sincronia) : Prop where
  clients : s'.clients = s.clients
  queue : ∀ i, i ∉ ids → ∀ l < (work.model i).length,
    s'.queue.get (cfg.getKey i l) = s.queue.get (cfg.getKey i l)
  waiting : ∀ i l, Waiting work (groups i l) i l → groups' i l = groups i l

namespace Kept
variable {ids : List Nat} {groups' groups'' : Nat → Nat → Group} {s' s'' : Sincronia}

theorem refl (ids : List Nat) (groups : Nat → Nat → Group) (s : Sincronia) :
    Kept cfg work ids groups groups s s :=
  ⟨rfl,fun _ _ _ _ => rfl,fun _ _ _ => rfl⟩

theorem trans (first : Kept cfg work ids groups groups' s s')
    (second : Kept cfg work ids groups' groups'' s' s'') :
    Kept cfg work ids groups groups'' s s'' := by
  refine ⟨second.clients.trans first.clients,fun i other l layer => ?_,fun i l waits => ?_⟩
  · exact (second.queue i other l layer).trans (first.queue i other l layer)
  · have same := first.waiting i l waits
    exact (second.waiting i l (by rwa [same])).trans same

theorem mono (kept : Kept cfg work ids groups groups' s s') (within : ids ⊆ ids') :
    Kept cfg work ids' groups groups' s s' :=
  ⟨kept.clients,fun i other => kept.queue i fun inside => other (within inside),kept.waiting⟩

end Kept

/-- A layer with an entry in its ready queue has a complete group. -/
theorem full_of_counted (sound : Sound cfg work groups early s)
    (counted : Counted cfg work s.queue j pq) (member : r ∈ pq) : r.job = j ∧
      r.tensorId < (work.model j).length ∧ 0 < work.numWorkersAllocated j ∧
      (groups j r.tensorId).arrived.length = work.numWorkersAllocated j ∧
      work.numWorkersAllocated j ≤ (s.queue.get (cfg.getKey j r.tensorId)).length := by
  obtain ⟨rfl,layer⟩ := counted.owned r member
  have some : 0 < pq.countP fun i => i.tensorId = r.tensorId :=
    List.countP_pos_iff.mpr ⟨r,member,by simp⟩
  rw [counted.counts r.tensorId layer] at some
  obtain ⟨positive,enough⟩ := Nat.div_pos_iff.mp some
  refine ⟨rfl,layer,positive,?_,enough⟩
  have rep := sound.pipelined.consistent.represents _ _ layer
  by_contra room
  have less : (groups r.job r.tensorId).arrived.length < work.numWorkersAllocated r.job :=
    Nat.lt_of_le_of_ne rep.wellFormed.arrived_le room
  rw [sound.queue _ _ layer,content_room sound.pipelined layer less,Group.entries,
    List.length_map] at enough
  omega

/-- The entry of a finished group leaves the heap with the group. -/
theorem Counted.pop {queue : Table Nat (List Entry)} {pq q : List TensorRef}
    (counted : Counted cfg work queue j (r :: pq)) (distinct : work.DistinctKeys cfg)
    (layer : r.tensorId < (work.model j).length) (positive : 0 < work.numWorkersAllocated j)
    (enough : work.numWorkersAllocated j ≤ (queue.get (cfg.getKey j r.tensorId)).length)
    (perm : q.Perm pq) : Counted cfg work (queue.put (cfg.getKey j r.tensorId)
      ((queue.get (cfg.getKey j r.tensorId)).drop (work.numWorkersAllocated j))) j q := by
  refine ⟨fun i member => counted.owned i (List.mem_cons_of_mem _ (perm.mem_iff.mp member)),
    fun l inside => ?_⟩
  have count := counted.counts l inside
  rw [List.countP_cons] at count
  rw [perm.countP_eq]
  by_cases same : r.tensorId = l
  · subst same
    rw [Nat.div_eq_sub_div positive enough,decide_eq_true rfl,if_pos rfl] at count
    rw [Table.get_put_same,List.length_drop]
    exact Nat.succ.inj count
  · have other : cfg.getKey j l ≠ cfg.getKey j r.tensorId := fun equal =>
      same (distinct _ _ _ _ inside layer equal).2.symm
    rw [Table.get_put_other _ other]
    simpa [same] using count

/-- A ready queue is cleaned out until a waiting tensor is on top. -/
theorem cleanOut_sound (distinct : work.DistinctCutKeys cfg) (fuel : Nat) (pq : List TensorRef)
    (room : pq.length ≤ fuel) (sound : Sound cfg work groups early s) (idle : s.clients.calls = [])
    (counted : Counted cfg work s.queue j pq) :
    ∃ s' pq' groups' early', cleanOut cfg work fuel s pq = some (s',pq') ∧
      Sound cfg work groups' early' s' ∧ Counted cfg work s'.queue j pq' ∧
      Kept cfg work [j] groups groups' s s' ∧
      ∀ r ∈ Heap.top pq', r.job = j ∧ Waiting work (groups' r.job r.tensorId) r.job r.tensorId := by
  induction fuel generalizing s pq groups early with
  | zero =>
    rw [List.length_eq_zero_iff.mp (Nat.le_zero.mp room)] at counted ⊢
    exact ⟨s,[],groups,early,rfl,sound,counted,Kept.refl _ _ _,fun r none => by cases none⟩
  | succ fuel ih =>
    cases pq with
    | nil => exact ⟨s,[],groups,early,rfl,sound,counted,Kept.refl _ _ _,fun r none => by cases none⟩
    | cons r pq =>
      obtain ⟨rfl,layer,positive,full,enough⟩ := full_of_counted sound counted List.mem_cons_self
      by_cases marked : u32 (r.key cfg) ∈ s.canErase
      · have leaving := (sound.erasable _ _ layer).mp marked
        have phase : (groups r.job r.tensorId).phase = .served := by
          rcases rests sound idle layer with ⟨chunks,phase⟩ | phase
          · simp [Group.leaving,phase] at leaving
          · exact phase
        have popped := (Heap.pop_perm s.clients.customCompare r pq).cons_inv
        have fewer := Heap.pop_length s.clients.customCompare (List.cons_ne_nil r pq)
        rw [List.length_cons] at room fewer
        obtain ⟨s',pq',groups',early',cleaned,sound',counted',kept,top⟩ := ih
          (Heap.pop s.clients.customCompare (r :: pq)) (by omega)
          (promote_sound sound distinct layer phase) idle
          (counted.pop distinct.distinctKeys layer positive enough popped)
        refine ⟨s',pq',groups',early',?_,sound',counted',Kept.trans ?_ kept,top⟩
        · simp only [cleanOut,Heap.top,List.head?_cons,if_pos marked]
          exact (if_pos enough).trans cleaned
        · refine ⟨rfl,fun i other l inside => ?_,fun i l waits => setGroup_other ?_⟩
          · refine Table.get_put_other _ (fun equal => other ?_) _
            exact List.mem_singleton.mpr (distinct.distinctKeys _ _ _ _ inside layer equal).1
          · rintro ⟨rfl,rfl⟩
            obtain ⟨chunks,resting⟩ := waits.resting
            rw [phase] at resting
            cases resting
      · refine ⟨s,r :: pq,groups,early,?_,sound,counted,Kept.refl _ _ _,fun i top => ?_⟩
        · simp only [cleanOut,Heap.top,List.head?_cons,if_neg marked]
        · cases top
          refine ⟨rfl,layer,?_,full,?_⟩
          · intro empty
            rw [empty,List.length_nil] at full
            omega
          · rcases rests sound idle layer with resting | served
            · exact resting
            · refine absurd ((sound.erasable _ _ layer).mpr ?_) marked
              simp [Group.leaving,served]

theorem collect_sound (distinct : work.DistinctCutKeys cfg) (pqueues : List (Nat × List TensorRef))
    (once : (pqueues.map Prod.fst).Nodup) (sound : Sound cfg work groups early s)
    (idle : s.clients.calls = [])
    (counted : ∀ j pq, (j,pq) ∈ pqueues → Counted cfg work s.queue j pq) :
    ∃ s' pqueues' weights groups' early', collect cfg work pqueues s = some (s',pqueues',weights) ∧
      Sound cfg work groups' early' s' ∧ pqueues'.map Prod.fst = pqueues.map Prod.fst ∧
      (∀ j pq, (j,pq) ∈ pqueues' → Counted cfg work s'.queue j pq) ∧
      Kept cfg work (pqueues.map Prod.fst) groups groups' s s' ∧
      (weights.map TensorRef.job).Sublist (pqueues.map Prod.fst) ∧
      ∀ r ∈ weights, Waiting work (groups' r.job r.tensorId) r.job r.tensorId := by
  induction pqueues generalizing s groups early with
  | nil =>
    exact ⟨s,[],[],groups,early,rfl,sound,rfl,counted,Kept.refl _ _ _,List.Sublist.refl _,
      fun r none => by cases none⟩
  | cons first rest ih =>
    obtain ⟨j,pq⟩ := first
    obtain ⟨absent,once⟩ := List.nodup_cons.mp once
    obtain ⟨s₁,pq',groups₁,early₁,cleaned,sound₁,counted₁,kept₁,top⟩ :=
      cleanOut_sound distinct pq.length pq le_rfl sound idle (counted j pq List.mem_cons_self)
    have later (i : Nat) (q : List TensorRef) (member : (i,q) ∈ rest) :
        Counted cfg work s₁.queue i q := by
      have other : i ∉ [j] := by
        intro same
        rw [List.mem_singleton.mp same] at member
        exact absent (List.mem_map.mpr ⟨_,member,rfl⟩)
      obtain ⟨owned,counts⟩ := counted i q (List.mem_cons_of_mem _ member)
      exact ⟨owned,fun l layer => by rw [kept₁.queue i other l layer]; exact counts l layer⟩
    obtain ⟨s₂,rest',weights,groups₂,early₂,collected,sound₂,ids,counted₂,kept₂,jobs,waits⟩ :=
      ih once sound₁ (kept₁.clients ▸ idle) later
    refine ⟨s₂,(j,pq') :: rest',(Heap.top pq').toList ++ weights,groups₂,early₂,?_,sound₂,?_,?_,?_,
      ?_,?_⟩
    · rw [collect,cleaned]
      dsimp only [Option.bind_eq_bind,Option.bind_some]
      rw [collected]
      rfl
    · rw [List.map_cons,List.map_cons,ids]
    · intro i q member
      rcases List.mem_cons.mp member with same | member
      · cases same
        obtain ⟨owned,counts⟩ := counted₁
        exact ⟨owned,fun l layer => by rw [kept₂.queue _ absent l layer]; exact counts l layer⟩
      · exact counted₂ i q member
    · exact (kept₁.mono (by simp)).trans (kept₂.mono (List.subset_cons_self _ _))
    · rw [List.map_append,List.map_cons]
      cases on : Heap.top pq' with
      | none => exact jobs.cons j
      | some r =>
        rw [(top r on).1.symm]
        exact jobs.cons_cons r.job
    · intro r member
      rcases List.mem_append.mp member with here | later
      · have on : r ∈ Heap.top pq' := Option.mem_toList.mp here
        rw [kept₂.waiting _ _ (top r on).2]
        exact (top r on).2
      · exact waits r later

theorem Heaped.congr (heaped : Heaped cfg work s) {s' : Sincronia} (queue : s'.queue = s.queue)
    (pqueues : s'.readyPqueues = s.readyPqueues)
    (finished : s'.clients.finished = s.clients.finished) : Heaped cfg work s' := by
  refine ⟨?_,?_,?_⟩
  · rw [pqueues]; exact heaped.distinct
  · rw [pqueues,queue]; exact heaped.counted
  · rw [pqueues,queue,finished]; exact heaped.present

/-- The keys still to be served in this order, each once. -/
def Planned (cfg : Config) (work : Workload) (groups : Nat → Nat → Group) (keys : List Nat) : Prop :=
  keys.Nodup ∧ ∀ key ∈ keys, Pending cfg work groups key

theorem reduce_sound (sound : Sound cfg work groups early s) (distinct : work.DistinctCutKeys cfg)
    (positive : 0 < cfg.chunkSize)
    (fits : work.ChunksFit cfg)
    (waits : Waiting work (groups j t) j t) (phase : (groups j t).phase = .gathering chunks)
    (id : Nat) : ∃ s', reduce cfg id s (cfg.getKey j t) = some s' ∧
      Sound cfg work (setGroup groups j t ((groups j t).launch chunks id)) early s' ∧
      s'.queue = s.queue ∧ s'.readyPqueues = s.readyPqueues ∧
      s'.clients = s.clients.allreduce id ((groups j t).entries j t) := by
  have rep := sound.pipelined.consistent.represents j t waits.layer
  have queue := waits.queue sound
  obtain ⟨w,ws,arrived⟩ := List.exists_cons_of_ne_nil waits.some
  have worker : w ∈ work.widsAllocated j := rep.wellFormed.inside (arrived ▸ List.mem_cons_self)
  have front : (s.queue.get (cfg.getKey j t)).head? = some ⟨⟨w,j,t⟩,(groups j t).turn⟩ := by
    rw [queue,Group.entries,arrived]
    rfl
  have size : (s.clients.tensor ⟨w,j,t⟩).size = work.size j t := rep.size w worker
  have progress : (s.clients.tensor ⟨w,j,t⟩).allreducedSize = _ := rep.allreducedSize w worker
  have reduced : (s.clients.tensor ⟨w,j,t⟩).allreducedSize = chunks * cfg.chunkSize := by
    simpa [Group.progress,phase] using progress
  have last := Group.last_iff _ _ positive (fits.size waits.layer)
    (rep.wellFormed.gathering chunks phase)
  have unmarked : u32 (cfg.getKey j t) ∉ s.canErase := fun marked => by
    have leaving := (sound.erasable j t waits.layer).mp marked
    simp [Group.leaving,phase] at leaving
  unfold reduce
  rw [front]
  dsimp only [Option.bind_eq_bind,Option.bind_some]
  refine ⟨_,rfl,?_,rfl,rfl,?_⟩
  · apply launch_sound sound distinct waits phase
    case clients => rw [queue]
    case queue => rfl
    case pops => rfl
    case erasable =>
      simp only [size,reduced,last]
      by_cases ends : Group.Last cfg.chunkSize (work.size j t) chunks
      · simp [ends,TensorRef.key]
      · simp [ends,unmarked]
    case others =>
      intro key other
      dsimp only
      split
      · simp [TensorRef.key,other]
      · exact Iff.rfl
    case served =>
      intro serve member
      rcases List.mem_append.mp member with old | new
      · exact sound.served serve old
      · rw [List.mem_singleton.mp new,queue]
        exact served_uniform sound.pipelined waits phase
  · rw [queue]

theorem reduceAll_sound (distinct : work.DistinctCutKeys cfg) (positive : 0 < cfg.chunkSize)
    (fits : work.ChunksFit cfg) (id : Nat) (keys : List Nat)
    (planned : Planned cfg work groups keys) (sound : Sound cfg work groups early s) :
    ∃ s' groups', keys.foldlM (reduce cfg id) s = some s' ∧ Sound cfg work groups' early s' ∧
      s'.queue = s.queue ∧ s'.readyPqueues = s.readyPqueues ∧
      s'.clients.finished = s.clients.finished ∧
      (∀ call ∈ s'.clients.calls, call ∈ s.clients.calls ∨ call.waiter = id) ∧
      ∀ key, key ∉ keys → Pending cfg work groups key → Pending cfg work groups' key := by
  induction keys generalizing s groups with
  | nil =>
    exact ⟨s,groups,rfl,sound,rfl,rfl,rfl,fun call old => .inl old,fun key _ pending => pending⟩
  | cons key rest ih =>
    obtain ⟨once,pending⟩ := planned
    obtain ⟨absent,distinctRest⟩ := List.nodup_cons.mp once
    obtain ⟨j,t,waits,rfl⟩ := pending key List.mem_cons_self
    obtain ⟨chunks,phase⟩ := waits.resting
    obtain ⟨s₁,reduced,sound₁,queue₁,pqueues₁,clients₁⟩ :=
      reduce_sound sound distinct positive fits waits phase id
    have others (key : Nat) (other : key ≠ cfg.getKey j t) (known : Pending cfg work groups key) :
        Pending cfg work (setGroup groups j t ((groups j t).launch chunks id)) key :=
      known.setGroup fun both => other both.2
    obtain ⟨s₂,groups₂,all,sound₂,queue₂,pqueues₂,finished₂,calls₂,kept₂⟩ := ih ⟨distinctRest,
      fun key member => others key (fun same => absent (same ▸ member))
        (pending key (List.mem_cons_of_mem _ member))⟩ sound₁
    refine ⟨s₂,groups₂,?_,sound₂,queue₂.trans queue₁,pqueues₂.trans pqueues₁,?_,?_,?_⟩
    · rw [List.foldlM_cons,reduced]
      exact all
    · rw [finished₂,clients₁]
      rfl
    · intro call member
      rcases calls₂ call member with old | new
      · rw [clients₁] at old
        rcases List.mem_append.mp old with old | new
        · exact .inl old
        · obtain ⟨entry,_,rfl⟩ := List.mem_map.mp new
          exact .inr rfl
      · exact .inr new
    · intro key outside known
      obtain ⟨other,outside⟩ := not_or.mp (List.mem_cons.not.mp outside)
      exact kept₂ key outside (others key other known)

theorem Pending.head (pending : Pending cfg work groups key) (sound : Sound cfg work groups early s) :
    ∃ front, (s.queue.get key).head? = some front ∧ front.tensor.key cfg = key := by
  obtain ⟨j,t,waits,rfl⟩ := pending
  obtain ⟨w,ws,arrived⟩ := List.exists_cons_of_ne_nil waits.some
  refine ⟨⟨⟨w,j,t⟩,(groups j t).turn⟩,?_,rfl⟩
  rw [waits.queue sound,Group.entries,arrived]
  rfl

/-- Work conservation takes keys out of the rest of `result`, each once. -/
theorem involve_spec (sound : Sound cfg work groups early s) (rest tkeys wids : List Nat)
    (planned : Planned cfg work groups (tkeys ++ rest)) :
    ∃ involved, s.involve topo work rest tkeys wids = some involved ∧
      Planned cfg work groups involved := by
  induction rest generalizing tkeys wids with
  | nil =>
    rw [List.append_nil] at planned
    exact ⟨tkeys,rfl,planned⟩
  | cons key rest ih =>
    obtain ⟨front,head,_⟩ :=
      (planned.2 key (List.mem_append_right _ List.mem_cons_self)).head sound
    simp only [involve,head,Option.bind_eq_bind,Option.bind_some]
    split
    · exact ih (tkeys ++ [key]) (wids ++ work.widsAllocated front.tensor.job) (by simpa using planned)
    · refine ih tkeys wids ⟨?_,fun k member => planned.2 k ?_⟩
      · exact planned.1.sublist ((List.sublist_cons_self key rest).append_left tkeys)
      · exact ((List.sublist_cons_self key rest).append_left tkeys).subset member

structure Suspended (cfg : Config) (work : Workload) (groups : Nat → Nat → Group) (id : Nat)
    (s : Sincronia) (position : Position (List Nat)) : Prop where
  heaped : Heaped cfg work s
  leaves : position.isLeaving = true → s.clients.calls = []
  waiters : ∀ call ∈ s.clients.calls, call.waiter = id
  planned : ∀ rest, position = .reducing rest → Planned cfg work groups rest

/-- One round of the loop over `result`. -/
theorem serveNext_sound (sound : Sound cfg work groups early s) (heaped : Heaped cfg work s)
    (distinct : work.DistinctCutKeys cfg) (positive : 0 < cfg.chunkSize)
    (fits : work.ChunksFit cfg) (idle : s.clients.calls = []) (id : Nat) (result : List Nat)
    (planned : Planned cfg work groups result) :
    ∃ s' position groups', s.serveNext cfg topo work id result = some (s',position) ∧
      Sound cfg work groups' early s' ∧ Suspended cfg work groups' id s' position := by
  cases result with
  | nil =>
    exact ⟨s,.leaving,groups,rfl,sound,heaped,fun _ => idle,by simp [idle],
      fun _ none => by cases none⟩
  | cons key rest =>
    obtain ⟨front,head,named⟩ := (planned.2 key List.mem_cons_self).head sound
    obtain ⟨involved,result,planned'⟩ := @involve_spec cfg topo work groups early s sound rest [key]
      (work.widsAllocated front.tensor.job) planned
    obtain ⟨s',groups',reduced,sound',queue,pqueues,finished,calls,kept⟩ :=
      reduceAll_sound distinct positive fits id involved planned' sound
    refine ⟨s',.reducing (rest.filter fun key => key ∉ involved),groups',?_,sound',
      heaped.congr queue pqueues finished,fun none => (by cases none),fun call member => ?_,?_⟩
    · simp only [serveNext,serve,head,named,result,reduced,Option.bind_eq_bind,Option.bind_some,
        Option.pure_def]
    · rcases calls call member with old | new
      · rw [idle] at old
        cases old
      · exact new
    · rintro _ ⟨⟩
      refine ⟨(List.nodup_cons.mp planned.1).2.filter _,fun k member => ?_⟩
      obtain ⟨inside,outside⟩ := List.mem_filter.mp member
      exact kept k (by simpa using outside) (planned.2 k (List.mem_cons_of_mem _ inside))

theorem planned_of_collected (distinct : work.DistinctKeys cfg) {weights : List TensorRef}
    (once : (weights.map TensorRef.job).Nodup)
    (waits : ∀ r ∈ weights, Waiting work (groups r.job r.tensorId) r.job r.tensorId) :
    Planned cfg work groups (weights.map (TensorRef.key cfg)) := by
  constructor
  · apply List.Nodup.map_on _ once.of_map
    intro r member q also same
    have job := (distinct _ _ _ _ (waits r member).layer (waits q also).layer same).1
    exact List.inj_on_of_nodup_map once member also job
  · intro key member
    obtain ⟨r,inside,rfl⟩ := List.mem_map.mp member
    exact ⟨r.job,r.tensorId,waits r inside,rfl⟩

theorem Planned.perm (planned : Planned cfg work groups keys) (perm : order.Perm keys) :
    Planned cfg work groups order :=
  ⟨perm.nodup_iff.mpr planned.1,fun key member => planned.2 key (perm.mem_iff.mp member)⟩

theorem schedule_perm (scheduled : schedule cfg order weights = some keys) :
    keys.Perm (weights.map (TensorRef.key cfg)) := by
  unfold schedule at scheduled
  dsimp only at scheduled
  split at scheduled
  · cases scheduled
    exact List.Perm.refl _
  · split at scheduled
    · cases scheduled
      assumption
    · cases scheduled

theorem Sound.requeue (sound : Sound cfg work groups early s) (pqueues : List (Nat × List TensorRef))
    (loop : ServerLoop (List Nat)) :
    Sound cfg work groups early { s with readyPqueues := pqueues, loop := loop } :=
  ⟨sound.pipelined,sound.retired,sound.queue,sound.erasable,sound.active,sound.served,sound.pops,
    sound.popped⟩

theorem Heaped.collected (heaped : Heaped cfg work s) {s' : Sincronia}
    {pqueues : List (Nat × List TensorRef)} {groups' : Nat → Nat → Group}
    (ids : pqueues.map Prod.fst = s.readyPqueues.map Prod.fst)
    (counted : ∀ j pq, (j,pq) ∈ pqueues → Counted cfg work s'.queue j pq)
    (kept : Kept cfg work (s.readyPqueues.map Prod.fst) groups groups' s s') :
    Heaped cfg work { s' with readyPqueues := pqueues } where
  distinct := ids ▸ heaped.distinct
  counted := counted
  present j live t layer some := by
    by_cases inside : j ∈ s.readyPqueues.map Prod.fst
    · rw [← ids] at inside
      obtain ⟨⟨_,pq⟩,member,rfl⟩ := List.mem_map.mp inside
      exact ⟨pq,member⟩
    · dsimp only at live some
      rw [kept.queue j inside t layer] at some
      rw [kept.clients] at live
      obtain ⟨pq,member⟩ := heaped.present j live t layer some
      exact absurd (List.mem_map.mpr ⟨_,member,rfl⟩) inside

theorem proceed_sound (sound : Sound cfg work groups early s) (heaped : Heaped cfg work s)
    (distinct : work.DistinctCutKeys cfg) (positive : 0 < cfg.chunkSize)
    (fits : work.ChunksFit cfg) (idle : s.clients.calls = []) (id : Nat) (result : List Nat)
    (planned : Planned cfg work groups result) :
    (∃ order after, s.proceed cfg topo work id order result = some after) ∧
    ∀ order after, s.proceed cfg topo work id order result = some after →
      ∃ groups' early', Sound cfg work groups' early' after.1 ∧
        Suspended cfg work groups' id after.1 after.2 := by
  unfold proceed
  by_cases more : result ≠ []
  · simp only [if_pos more]
    obtain ⟨s',position,groups',served,sound',suspended⟩ := @serveNext_sound cfg topo work groups
      early s sound heaped distinct positive fits idle id result planned
    refine ⟨⟨[],_,served⟩,fun _ after taken => ?_⟩
    cases served.symm.trans taken
    exact ⟨groups',early,sound',suspended⟩
  · simp only [if_neg more]
    by_cases empty : s.readyPqueuesAllEmpty = true
    · simp only [if_pos empty]
      refine ⟨⟨[],_,rfl⟩,?_⟩
      rintro _ _ ⟨⟩
      exact ⟨groups,early,sound,heaped,fun _ => idle,by simp [idle],fun _ none => by cases none⟩
    · simp only [if_neg empty]
      obtain ⟨s₁,pqueues,weights,groups₁,early₁,collected,sound₁,ids,counted,kept,jobs,waits⟩ :=
        collect_sound distinct s.readyPqueues heaped.distinct sound idle heaped.counted
      simp only [collected,Option.bind_eq_bind,Option.bind_some]
      have planned₁ := planned_of_collected distinct.distinctKeys (jobs.nodup heaped.distinct) waits
      have heaped₁ := heaped.collected ids counted kept
      have serves (order keys : List Nat) (scheduled : schedule cfg order weights = some keys) :=
        @serveNext_sound cfg topo work groups₁ early₁ _ (sound₁.requeue pqueues s₁.loop) heaped₁
          distinct positive fits (kept.clients ▸ idle) id keys (planned₁.perm (schedule_perm scheduled))
      constructor
      · obtain ⟨keys,scheduled⟩ : ∃ keys,
            schedule cfg (weights.map (TensorRef.key cfg)) weights = some keys := by
          unfold schedule
          dsimp only
          rw [if_pos (List.Perm.refl _)]
          exact ⟨_,ite_self _⟩
        obtain ⟨s',position,_,served,_⟩ := serves _ keys scheduled
        refine ⟨weights.map (TensorRef.key cfg),(s',position),?_⟩
        rw [scheduled]
        exact served
      · intro order after taken
        obtain ⟨keys,scheduled,taken⟩ := Option.bind_eq_some_iff.mp taken
        obtain ⟨s',position,groups',served,sound',suspended⟩ := serves order keys scheduled
        cases served.symm.trans taken
        exact ⟨groups',early₁,sound',suspended⟩

/-- The loop's rest of `result` consists of waiting keys, and it awaits all calls in progress. -/
structure Inv (cfg : Config) (work : Workload) (s : Sincronia) : Prop where
  sound : ∃ groups early, Sound cfg work groups early s ∧
    ∀ id rest, s.loop.instances id = some (.reducing rest) → Planned cfg work groups rest
  heaped : Heaped cfg work s
  wellFormed : s.loop.WellFormed
  awaited : Awaited s.clients s.loop

theorem initial_inv (cfg : Config) (work : Workload) : Inv cfg work (initial work) where
  sound := by
    refine ⟨_,_,initial_sound cfg work,fun id rest known => ?_⟩
    have leaving : ServerLoop.initial.instances 0 = some (.leaving : Position (List Nat)) := rfl
    cases ServerLoop.initial_wellFormed.single _ _ _ _ known leaving
    cases known
  heaped := initial_heaped cfg work
  wellFormed := ServerLoop.initial_wellFormed
  awaited _ member := by cases member

namespace Inv

/-- A step that leaves the loop alone keeps its rest of `result` waiting. -/
theorem planned_of_kept {loop : ServerLoop (List Nat)} {groups' : Nat → Nat → Group}
    (planned : ∀ id rest, loop.instances id = some (.reducing rest) → Planned cfg work groups rest)
    (kept : ∀ key, Pending cfg work groups key → Pending cfg work groups' key) :
    ∀ id rest, loop.instances id = some (.reducing rest) → Planned cfg work groups' rest := by
  intro id rest known
  obtain ⟨once,pending⟩ := planned id rest known
  exact ⟨once,fun key member => kept key (pending key member)⟩

/-- The invariant after the loop has run from one suspension to the next. -/
theorem of_suspended {id : Nat} {position : Position (List Nat)} {loop : ServerLoop (List Nat)}
    (sound : Sound cfg work groups early s) (suspended : Suspended cfg work groups id s position)
    (wellFormed : loop.WellFormed) (known : loop.instances id = some position) :
    Inv cfg work { s with loop := loop } where
  sound := by
    refine ⟨groups,early,sound.requeue s.readyPqueues loop,fun other rest found => ?_⟩
    cases wellFormed.single _ _ _ _ found known
    rw [known] at found
    exact suspended.planned rest (Option.some.inj found)
  heaped := suspended.heaped.congr rfl rfl rfl
  wellFormed := wellFormed
  awaited := Awaited.of_waiters known suspended.leaves suspended.waiters

theorem start (inv : Inv cfg work s) (distinct : work.DistinctCutKeys cfg)
    (positive : 0 < cfg.chunkSize) (fits : work.ChunksFit cfg) (result : List Nat → Option Sincronia)
    (starts : ∀ order, result order = if s.loop.loopIsRunning then some s else do
      let (s,position) ← s.proceed cfg topo work s.loop.coroutines order []
      return { s with loop := s.loop.begin position }) :
    (∃ order t, result order = some t) ∧ ∀ order t, result order = some t → Inv cfg work t := by
  by_cases running : s.loop.loopIsRunning = true
  · simp only [if_pos running] at starts
    refine ⟨⟨[],s,starts []⟩,fun order t taken => ?_⟩
    cases (starts order).symm.trans taken
    exact inv
  · simp only [if_neg running] at starts
    have stopped := Bool.eq_false_iff.mpr running
    have idle := inv.awaited.idle_of_stopped inv.wellFormed stopped
    obtain ⟨groups,early,sound,planned⟩ := inv.sound
    obtain ⟨⟨order,after,taken⟩,all⟩ := @proceed_sound cfg topo work _ _ _ sound inv.heaped distinct
      positive fits idle s.loop.coroutines [] ⟨List.nodup_nil,fun _ none => by cases none⟩
    constructor
    · refine ⟨order,{ after.1 with loop := after.1.loop.begin after.2 },?_⟩
      rw [starts,taken]
      rfl
    · intro order t result
      rw [starts] at result
      obtain ⟨⟨after,position⟩,taken,result⟩ := Option.bind_eq_some_iff.mp result
      cases result
      obtain ⟨groups',early',sound',suspended⟩ := all order _ taken
      have loop : after.loop = s.loop := (proceed_spec taken).1
      apply of_suspended sound' suspended
      · exact loop ▸ inv.wellFormed.begin stopped
      · rw [loop]
        exact Table.put_same _ _ _

theorem ready (inv : Inv cfg work s) (distinct : work.DistinctCutKeys cfg) {r : TensorRef}
    (may : s.clients.MayEnqueue work r)
    (whole : ((s.push cfg r).queue.get (r.key cfg)).length %
      work.numWorkersAllocated r.job = 0) : Inv cfg work ((s.push cfg r).ready r) := by
  obtain ⟨groups,early,sound,planned⟩ := inv.sound
  obtain ⟨g,ws,pushed,changed⟩ := push_sound sound distinct may
  refine ⟨⟨_,_,pushed.requeue _ _,planned_of_kept planned fun key known => ?_⟩,
    ready_heaped sound inv.heaped distinct may whole,inv.wellFormed,inv.awaited⟩
  rcases changed with rfl | room
  · rwa [setGroup_self]
  · exact known.setGroup fun both => absurd both.1.full room.ne

theorem enqueue (inv : Inv cfg work s) (distinct : work.DistinctCutKeys cfg)
    (positive : 0 < cfg.chunkSize) (fits : work.ChunksFit cfg) {r : TensorRef}
    (may : s.clients.MayEnqueue work r) :
    (∃ order t, s.enqueue cfg topo work order r = some t) ∧
    ∀ order t, s.enqueue cfg topo work order r = some t → Inv cfg work t := by
  by_cases whole : ((s.push cfg r).queue.get (r.key cfg)).length %
      work.numWorkersAllocated r.job = 0
  · exact (inv.ready distinct may whole).start distinct positive fits _ fun order => if_pos whole
  · obtain ⟨groups,early,sound,planned⟩ := inv.sound
    obtain ⟨g,ws,pushed,changed⟩ := push_sound sound distinct may
    have kept (key : Nat) (known : Pending cfg work groups key) :
        Pending cfg work (setGroup groups r.job r.tensorId g) key := by
      rcases changed with rfl | room
      · rwa [setGroup_self]
      · exact known.setGroup fun both => absurd both.1.full room.ne
    have pushed' : Inv cfg work (s.push cfg r) :=
      ⟨⟨_,_,pushed,planned_of_kept planned kept⟩,push_heaped inv.heaped distinct may whole,
        inv.wellFormed,inv.awaited⟩
    have result (order : List Nat) : s.enqueue cfg topo work order r = some (s.push cfg r) :=
      if_neg whole
    refine ⟨⟨[],_,result []⟩,fun order t taken => ?_⟩
    cases (result order).symm.trans taken
    exact pushed'

theorem resume (inv : Inv cfg work s) (distinct : work.DistinctCutKeys cfg)
    (positive : 0 < cfg.chunkSize) (fits : work.ChunksFit cfg) {id : Nat} {position}
    (known : s.loop.instances id = some position) (ended : s.clients.awaits id = false) :
    (∃ order t, step cfg topo work (.resume id order) s = some t) ∧
    ∀ order t, step cfg topo work (.resume id order) s = some t → Inv cfg work t := by
  obtain ⟨groups,early,sound,planned⟩ := inv.sound
  have idle := inv.awaited.idle_of_resume inv.wellFormed known ended
  cases position with
  | leaving =>
    simp only [step,known]
    refine ⟨⟨[],_,rfl⟩,?_⟩
    rintro _ _ ⟨⟩
    refine ⟨⟨_,_,sound.requeue _ _,fun other rest found => ?_⟩,inv.heaped.congr rfl rfl rfl,
      inv.wellFormed.finish known,Awaited.of_idle idle⟩
    by_cases same : other = id
    · simp [ServerLoop.finish,same] at found
    · simp only [ServerLoop.finish,Table.erase_other _ same] at found
      exact planned other rest found
  | reducing result =>
    obtain ⟨⟨order,after,taken⟩,all⟩ := @proceed_sound cfg topo work _ _ _ sound inv.heaped distinct
      positive fits idle id result (planned id result known)
    simp only [step,known,if_pos ended]
    constructor
    · exact ⟨order,_,by rw [taken]; rfl⟩
    · intro order t result
      obtain ⟨⟨after,position⟩,taken,result⟩ := Option.bind_eq_some_iff.mp result
      cases result
      obtain ⟨groups',early',sound',suspended⟩ := all order _ taken
      have loop : after.loop = s.loop := (proceed_spec taken).1
      apply of_suspended sound' suspended
      · exact loop ▸ inv.wellFormed.suspend known
      · exact Table.put_same _ _ _

end Inv

theorem step_inv (distinct : work.DistinctCutKeys cfg) (positive : 0 < cfg.chunkSize)
    (fits : work.ChunksFit cfg) (l : Label) (s t : Sincronia) (inv : Inv cfg work s)
    (_ : Runs.anyStep l s) (taken : step cfg topo work l s = some t) : Inv cfg work t := by
  cases l with
  | enqueue r order =>
    simp only [step] at taken
    split at taken
    · rename_i may
      exact (inv.enqueue distinct positive fits may).2 order t taken
    · cases taken
  | complete call =>
    obtain ⟨clients,completed,result⟩ := Option.bind_eq_some_iff.mp taken
    cases result
    obtain ⟨called,rfl⟩ := Clients.complete_some completed
    obtain ⟨groups,early,sound,planned⟩ := inv.sound
    obtain ⟨j,t,g,busy,sound'⟩ := complete_sound sound distinct called
    refine ⟨⟨_,_,sound',Inv.planned_of_kept planned fun key pending => ?_⟩,
      inv.heaped.congr rfl rfl rfl,inv.wellFormed,inv.awaited.answer _ _⟩
    exact pending.setGroup fun both => busy both.1
  | resume id order =>
    have resumed := taken
    simp only [step] at resumed
    split at resumed
    · cases resumed
    · rename_i known
      exact (inv.resume distinct positive fits known (inv.awaited.not_awaits known)).2 order t taken
    · rename_i known
      split at resumed
      · rename_i ended
        exact (inv.resume distinct positive fits known ended).2 order t taken
      · cases resumed
  | finish w j =>
    simp only [step] at taken
    split at taken
    · rename_i may
      cases taken
      obtain ⟨groups,early,sound,planned⟩ := inv.sound
      exact ⟨⟨_,_,finish_sound sound may,planned⟩,finish_heaped inv.heaped may,inv.wellFormed,
        inv.awaited⟩
    · cases taken

/-- `ready_pqueues[jid]`. -/
def readyPqueue (s : Sincronia) (j : Nat) : List TensorRef :=
  (s.readyPqueues.find? fun entry => entry.1 = j).elim [] Prod.snd

/-- No worker has torn the job down. -/
def Live (work : Workload) (s : Sincronia) (j : Nat) : Prop :=
  ∀ w ∈ work.widsAllocated j, s.clients.finished w j = false

/-- Every served key and every pop was a whole group; the ready queues count the complete groups;
each enqueue is in `queue` or was popped, and is reduced once; and every step that the clients may
take is defined for some order that `bssi` may return. -/
structure Bookkept (cfg : Config) (topo : Topology) (work : Workload) (s : Sincronia) : Prop where
  served : ∀ serve ∈ s.serves, Uniform cfg work serve
  pops : ∀ entries ∈ s.pops, Finished work s.clients entries
  counted : ∀ j, Live work s j → ∀ t < (work.model j).length,
    (s.readyPqueue j).countP (fun r => r.key cfg = cfg.getKey j t) =
      (s.queue.get (cfg.getKey j t)).length / work.numWorkersAllocated j
  placed : ∀ r, work.Allocates r → ∀ turn, (s.queue.get (r.key cfg)).count ⟨r,turn⟩ +
    s.pops.flatten.count ⟨r,turn⟩ = if turn < s.clients.enqueued r then 1 else 0
  once : ∀ r, work.Allocates r → ∀ turn, s.clients.served.count ⟨r,turn⟩ +
    (s.clients.calls.map Call.entry).count ⟨r,turn⟩ ≤ 1 ∧
    (⟨r,turn⟩ ∈ s.clients.served → s.clients.reduced ⟨r,turn⟩ = work.size r.job r.tensorId)
  defined : (∀ r, s.clients.MayEnqueue work r →
      ∃ order, (step cfg topo work (.enqueue r order) s).isSome) ∧
    ∀ id position, s.loop.instances id = some position → s.clients.awaits id = false →
      ∃ order, (step cfg topo work (.resume id order) s).isSome

theorem readyPqueue_eq (once : (s.readyPqueues.map Prod.fst).Nodup)
    (member : (j,pq) ∈ s.readyPqueues) : s.readyPqueue j = pq := by
  unfold readyPqueue
  cases found : s.readyPqueues.find? fun entry => entry.1 = j with
  | none => exact absurd (decide_eq_true rfl) (List.find?_eq_none.mp found _ member)
  | some entry =>
    have here : entry.1 = j := by simpa using List.find?_some found
    exact congrArg Prod.snd
      (List.inj_on_of_nodup_map once (List.mem_of_find?_eq_some found) member here)

theorem readyPqueue_nil (absent : ∀ pq, (j,pq) ∉ s.readyPqueues) : s.readyPqueue j = [] := by
  unfold readyPqueue
  cases found : s.readyPqueues.find? fun entry => entry.1 = j with
  | none => rfl
  | some entry =>
    have here : entry.1 = j := by simpa using List.find?_some found
    subst here
    exact absurd (List.mem_of_find?_eq_some found) (absent entry.2)

/-- The ready queue of a live job counts the complete groups of its queues. -/
theorem Heaped.readyPqueue_count (heaped : Heaped cfg work s) (distinct : work.DistinctKeys cfg)
    (live : Live work s j) (layer : t < (work.model j).length) :
    (s.readyPqueue j).countP (fun r => r.key cfg = cfg.getKey j t) =
      (s.queue.get (cfg.getKey j t)).length / work.numWorkersAllocated j := by
  by_cases known : ∃ pq, (j,pq) ∈ s.readyPqueues
  · obtain ⟨pq,member⟩ := known
    obtain ⟨owned,counts⟩ := heaped.counted j pq member
    rw [readyPqueue_eq heaped.distinct member,← counts t layer]
    apply List.countP_congr
    intro r inside
    obtain ⟨rfl,within⟩ := owned r inside
    simp only [decide_eq_true_eq]
    constructor
    · exact fun same => (distinct _ _ _ _ within layer same).2
    · exact fun same => same ▸ rfl
  · rw [readyPqueue_nil fun pq member => known ⟨pq,member⟩]
    by_contra some
    exact known (heaped.present j live t layer (Nat.pos_of_ne_zero (Ne.symm some)))

theorem placed (sound : Sound cfg work groups early s) (layer : t < (work.model j).length)
    (worker : w ∈ work.widsAllocated j) (turn : Nat) :
    (s.queue.get (cfg.getKey j t)).count ⟨⟨w,j,t⟩,turn⟩ + s.pops.flatten.count ⟨⟨w,j,t⟩,turn⟩ =
      if turn < s.clients.enqueued ⟨w,j,t⟩ then 1 else 0 := by
  have rep := sound.pipelined.consistent.represents j t layer
  have ahead : ((groups j t).advance (early j t)).arrived.Nodup := sound.pipelined.distinct j t layer
  have arrived (member : w ∈ early j t) : w ∈ (groups j t).arrived := by
    apply rep.mem_arrived (rep.wellFormed.full fun phase => ?_) worker
    rw [sound.pipelined.early_nil layer phase] at member
    cases member
  have count {g : Group} (once : g.arrived.Nodup) : (g.entries j t).count ⟨⟨w,j,t⟩,turn⟩ =
      if turn = g.turn ∧ w ∈ g.arrived then 1 else 0 := by
    rw [Group.count_entries once]
    simp [Group.mem_entries]
  rw [sound.queue j t layer,content,List.count_append,count rep.wellFormed.distinct,count ahead,
    sound.popped j t layer w worker,sound.pipelined.enqueued_eq layer worker]
  dsimp only [Group.advance]
  by_cases early' : w ∈ early j t
  · simp only [early',arrived early',and_true,if_true]
    split_ifs <;> omega
  · by_cases here : w ∈ (groups j t).arrived
    · simp only [early',here,and_true,and_false,if_true,if_false]
      split_ifs <;> omega
    · simp only [early',here,and_false,if_false]
      split_ifs <;> omega

/-- An enqueue is not issued again while its call is in progress or after its pass. -/
theorem issued_once (sound : Sound cfg work groups early s) (layer : t < (work.model j).length)
    (worker : w ∈ work.widsAllocated j) (turn : Nat) :
    s.clients.served.count ⟨⟨w,j,t⟩,turn⟩ +
      (s.clients.calls.map Call.entry).count ⟨⟨w,j,t⟩,turn⟩ ≤ 1 ∧
    (⟨⟨w,j,t⟩,turn⟩ ∈ s.clients.served → s.clients.reduced ⟨⟨w,j,t⟩,turn⟩ = work.size j t) := by
  have rep := sound.pipelined.consistent.represents j t layer
  obtain ⟨served,calls⟩ := sound.pipelined.reduced_once layer worker turn
  constructor
  · have apart : w ∈ (groups j t).outstanding →
        (groups j t).ended cfg.chunkSize (work.size j t) w = false := by
      intro member
      cases phase : (groups j t).phase with
      | gathering chunks => simp [Group.ended,phase]
      | served => simp [Group.outstanding,phase] at member
      | reducing chunks waiter outstanding =>
        simp only [Group.outstanding,phase] at member
        simp [Group.ended,phase,member]
    rw [served,calls]
    by_cases working : turn = (groups j t).turn ∧ w ∈ (groups j t).outstanding
    · rw [if_pos working,if_neg]
      simp [working.1,apart working.2]
    · rw [if_neg working,Nat.add_zero]
      split <;> omega
  · intro member
    have before : turn < (s.clients.tensor ⟨w,j,t⟩).iter := by
      by_contra later
      have count := rep.served w worker turn
      change s.clients.served.count _ = if turn < (s.clients.tensor ⟨w,j,t⟩).iter then 1 else 0 at count
      rw [if_neg later] at count
      exact List.count_eq_zero.mp count member
    have reduced := rep.reduced w worker turn
    change s.clients.reduced _ = if turn < (s.clients.tensor ⟨w,j,t⟩).iter then _ else _ at reduced
    rwa [if_pos before] at reduced

theorem Inv.bookkept (inv : Inv cfg work s) (distinct : work.DistinctCutKeys cfg)
    (positive : 0 < cfg.chunkSize) (fits : work.ChunksFit cfg) : Bookkept cfg topo work s := by
  obtain ⟨groups,early,sound,_⟩ := inv.sound
  constructor
  case served => exact sound.served
  case pops => exact sound.pops
  case counted =>
    exact fun j live t layer => inv.heaped.readyPqueue_count distinct.distinctKeys live layer
  case placed => exact fun r known turn => Sincronia.placed sound known.2 known.1 turn
  case once => exact fun r known turn => issued_once sound known.2 known.1 turn
  case defined =>
    constructor
    · intro r may
      obtain ⟨order,t,taken⟩ := (inv.enqueue distinct positive fits may).1
      refine ⟨order,?_⟩
      rw [step,if_pos may,taken]
      rfl
    · intro id position known ended
      obtain ⟨order,t,taken⟩ := (inv.resume distinct positive fits known ended).1
      refine ⟨order,?_⟩
      rw [taken]
      rfl

/-- In every run each served key and each pop is a whole group, and no enqueue is lost. -/
theorem sincronia_bookkeeping (cfg : Config) (topo : Topology) (work : Workload)
    (positive : 0 < cfg.chunkSize) (distinct : work.DistinctCutKeys cfg) (fits : work.ChunksFit cfg)
    (s : Sincronia) (run : Runs.Run (step cfg topo work) Runs.anyStep (initial work) s) :
    Bookkept cfg topo work s := by
  have inv := run.invariant (step_inv distinct positive fits) (initial_inv cfg work)
  exact inv.bookkept distinct positive fits

/-- The faster worker enqueues the next iteration before the loop pops the finished one. -/
theorem sincronia_bookkeeping_early_enqueue :
    ∃ s, s.serves.length = 2 ∧ s.pops.length = 1 ∧ s.clients.enqueued ⟨0,0,0⟩ = 2 ∧
      Bookkept oneLayerConfig .custom oneLayer s := by
  have taken : (Runs.exec (step oneLayerConfig .custom oneLayer) Runs.anyStep
      [.resume 0 [],.enqueue ⟨0,0,0⟩ [],.enqueue ⟨1,0,0⟩ [],
        .complete ⟨1,⟨⟨0,0,0⟩,0⟩⟩,.complete ⟨1,⟨⟨1,0,0⟩,0⟩⟩,.resume 1 [],
        .complete ⟨1,⟨⟨0,0,0⟩,0⟩⟩,.enqueue ⟨0,0,0⟩ [],.complete ⟨1,⟨⟨1,0,0⟩,0⟩⟩,.resume 1 []]
      (initial oneLayer)).map
      (fun s => (s.serves.length,s.pops.length,s.clients.enqueued ⟨0,0,0⟩)) = some (2,1,2) := by
    decide
  obtain ⟨s,run,view⟩ := Runs.exists_run_of_exec taken
  obtain ⟨serves,view⟩ := Prod.mk.inj view
  obtain ⟨pops,enqueued⟩ := Prod.mk.inj view
  exact ⟨s,serves,pops,enqueued,sincronia_bookkeeping _ _ _ (by decide) oneLayer_distinctCutKeys
    oneLayer_chunksFit s run⟩

end Sincronia
end CloudSim
