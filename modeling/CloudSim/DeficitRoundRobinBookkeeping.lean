import CloudSim.Awaited
import CloudSim.DeficitRoundRobinReady
import CloudSim.WakeUp

/-! The bookkeeping of `DeficitRoundRobin`: every group that the loop picks is complete, and every
enqueue is in one place until it is popped. -/
namespace CloudSim

namespace DeficitRoundRobin
variable {cfg : Config} {topo : Topology} {work : Workload} {groups : Nat → Nat → Group}
  {early : Nat → Nat → List Nat} {s : DeficitRoundRobin} {j t : Nat}

def Resting (work : Workload) (groups : Nat → Nat → Group) (j : Nat) : Prop :=
  ∀ t < (work.model j).length, ∃ chunks, (groups j t).phase = .gathering chunks

def Offers (s : DeficitRoundRobin) (j : Nat) : Prop := ∃ pq, (j,pq) ∈ s.readyPqueues ∧ pq ≠ []

section launch
variable {id chunks : Nat} {pqueues : List ReadyPqueue} {popped : Bool}

theorem poppedEntries_launch (id : Nat) (tensors : List Entry) (popped : Bool)
    (s : DeficitRoundRobin) : (s.launch id tensors popped).poppedEntries =
      s.poppedEntries ++ if popped then tensors else [] := by
  cases popped with
  | false => simp [poppedEntries,launch]
  | true => simp [poppedEntries,launch,Function.comp_def]

theorem picked_uniform {c : Clients} (pipe : Pipelined work cfg.chunkSize groups early c)
    (waits : Waiting cfg work (groups j t) j t) (phase : (groups j t).phase = .gathering chunks)
    (last : popped = true ↔ work.size j t ≤ chunks * cfg.chunkSize + cfg.chunkSize) :
    Uniform cfg work ⟨((groups j t).entries j t).map fun entry =>
      (entry,(c.tensor entry.tensor).iter,(c.tensor entry.tensor).allreducedSize),popped⟩ :=
  ⟨j,t,(groups j t).turn,chunks * cfg.chunkSize,waits.layer,
    pipe.entries_uniform waits.layer phase waits.full,last⟩

theorem launch_sound (sound : Sound cfg work groups early s) (distinct : work.DistinctKeys cfg)
    (waits : Waiting cfg work (groups j t) j t) (phase : (groups j t).phase = .gathering chunks)
    (decided : popped = decide (Group.Last cfg.chunkSize (work.size j t) chunks))
    (last : popped = true ↔ work.size j t ≤ chunks * cfg.chunkSize + cfg.chunkSize)
    (indexed : Indexed pqueues s.jidToDequeIdx)
    (others : ∀ i pq, i ≠ j → ((i,pq) ∈ pqueues ↔ (i,pq) ∈ s.readyPqueues))
    (listed : ∀ pq, (j,pq) ∈ pqueues →
      Listed cfg work (setGroup groups j t ((groups j t).launch chunks id) j) j pq)
    (present : ∃ pq, (j,pq) ∈ pqueues) :
    Sound cfg work (setGroup groups j t ((groups j t).launch chunks id)) early
      ({ s with readyPqueues := pqueues }.launch id ((groups j t).entries j t) popped) := by
  have rep := sound.pipelined.consistent.represents j t waits.layer
  have nobody := sound.pipelined.early_nil waits.layer phase
  have pipelined := sound.pipelined.launch waits.layer phase waits.full id
  have leaving : (groups j t).leaving cfg.chunkSize (work.size j t) = false := waits.staying
  have leaves : ((groups j t).launch chunks id).leaving cfg.chunkSize (work.size j t) = popped := by
    rw [decided]
    rfl
  rw [← setNext_self early j t] at pipelined ⊢
  apply relayer sound distinct waits.layer pipelined
  case retired => exact sound.retired
  case here =>
    refine (sound.queue j t waits.layer).trans ?_
    rfl
  case elsewhere => exact fun _ _ => rfl
  case indexed => exact indexed
  case others => exact others
  case listed => exact listed
  case present => exact fun _ => present
  case active =>
    refine ⟨Phase.noConfusion,fun _ _ same => ?_⟩
    injection same with _ _ none
    exact waits.some none
  case picked =>
    intro pick member
    rcases List.mem_append.mp member with old | new
    · exact sound.picked pick old
    · rw [List.mem_singleton.mp new]
      exact picked_uniform sound.pipelined waits phase last
  case foreign =>
    intro e other
    rw [poppedEntries_launch,List.count_append]
    have absent : e ∉ (groups j t).entries j t := fun member =>
      other ⟨(Group.mem_entries.mp member).1,(Group.mem_entries.mp member).2.1⟩
    have none : (if popped then (groups j t).entries j t else []).count e = 0 := by
      split
      · exact List.count_eq_zero.mpr absent
      · rfl
    rw [none]
    rfl
  case popped =>
    intro w worker turn
    have old := sound.popped j t waits.layer w worker turn
    have own : ((groups j t).entries j t).count ⟨⟨w,j,t⟩,turn⟩ =
        if turn = (groups j t).turn then 1 else 0 := by
      rw [Group.count_entries rep.wellFormed.distinct]
      simp [Group.mem_entries,rep.mem_arrived waits.full worker]
    rw [poppedEntries_launch,List.count_append]
    change s.poppedEntries.count _ + _ = _
    rw [old]
    simp only [Popped,leaving,leaves,Group.launch_turn,Bool.false_eq_true,and_false,or_false]
    cases popped with
    | false => simp
    | true =>
      rw [if_pos rfl,own]
      by_cases this : turn = (groups j t).turn
      · simp [this]
      · simp [this]

end launch

/-- What the loop does with the first group of a job, after its `chunks`-th round. -/
theorem reduce_eq (sound : Sound cfg work groups early s)
    (fits : work.ChunksFit cfg) (positive : cfg.chunkSize ≠ 0)
    (known : s.jidToDequeIdx j = some i) {rest : List (List Entry)}
    (found : s.readyPqueues[i]? = some (j,(groups j t).entries j t :: rest))
    (waits : Waiting cfg work (groups j t) j t) (phase : (groups j t).phase = .gathering chunks)
    (id : Nat) (quantums : Table Nat Nat) :
    let last := decide (Group.Last cfg.chunkSize (work.size j t) chunks)
    let popped := s.readyPqueues.set i
      (j,Heap.pop (less s.clients) ((groups j t).entries j t :: rest))
    let pqueues := if last then popped else s.readyPqueues
    reduce cfg id (s,quantums) j = some
      ({ s with readyPqueues := pqueues }.launch id ((groups j t).entries j t) last,
        quantums.put j (u32 (quantums.get j + 1))) ∧
    (last = true ↔ work.size j t ≤ chunks * cfg.chunkSize + cfg.chunkSize) := by
  have rep := sound.pipelined.consistent.represents j t waits.layer
  obtain ⟨w,ws,arrived⟩ := List.exists_cons_of_ne_nil waits.some
  have worker : w ∈ work.widsAllocated j := rep.wellFormed.inside (arrived ▸ List.mem_cons_self)
  have front : ((groups j t).entries j t).head? = some ⟨⟨w,j,t⟩,(groups j t).turn⟩ := by
    rw [Group.entries,arrived]
    rfl
  have size : (s.clients.tensor ⟨w,j,t⟩).size = work.size j t := rep.size w worker
  have progress : (s.clients.tensor ⟨w,j,t⟩).allreducedSize = _ := rep.allreducedSize w worker
  have reduced : (s.clients.tensor ⟨w,j,t⟩).allreducedSize = chunks * cfg.chunkSize := by
    simpa [Group.progress,phase] using progress
  have last := Group.last_iff _ _ (Nat.pos_of_ne_zero positive) (fits.size waits.layer)
    (rep.wellFormed.gathering chunks phase)
  have whole : work.size j t ≤ chunks * cfg.chunkSize + cfg.chunkSize ↔
      Group.Last cfg.chunkSize (work.size j t) chunks := by
    rw [Group.Last,Nat.succ_mul]
    exact (or_iff_right positive).symm
  refine ⟨?_,decide_eq_true_iff.trans whole.symm⟩
  simp only [reduce,Table.get,known,Option.getD_some,found,Heap.top,List.head?_cons,front,size,
    reduced,last,if_neg positive,Option.bind_eq_bind,Option.bind_some,
    Option.pure_def]
  by_cases ends : Group.Last cfg.chunkSize (work.size j t) chunks
  · simp [ends]
  · simp [ends]

theorem reduce_sound (sound : Sound cfg work groups early s) (distinct : work.DistinctKeys cfg)
    (fits : work.ChunksFit cfg) (positive : cfg.chunkSize ≠ 0)
    {pq : List (List Entry)} (member : (j,pq) ∈ s.readyPqueues) (some : pq ≠ [])
    (resting : Resting work groups j) (id : Nat) (quantums : Table Nat Nat) :
    ∃ t chunks after, reduce cfg id (s,quantums) j = .some after ∧
      Sound cfg work (setGroup groups j t ((groups j t).launch chunks id)) early after.1 ∧
      after.1.clients = s.clients.allreduce id ((groups j t).entries j t) ∧
      ∀ i q, i ≠ j → ((i,q) ∈ after.1.readyPqueues ↔ (i,q) ∈ s.readyPqueues) := by
  obtain ⟨i,known,found⟩ := sound.indexed.at member
  obtain ⟨tensors,rest,rfl⟩ := List.exists_cons_of_ne_nil some
  have listed := sound.listed j _ member
  obtain ⟨t,waits,rfl⟩ := (listed.2 tensors).mp List.mem_cons_self
  obtain ⟨chunks,phase⟩ := resting t waits.layer
  obtain ⟨reduced,last⟩ := reduce_eq sound fits positive known found waits phase id quantums
  refine ⟨t,chunks,_,reduced,?_,rfl,?_⟩
  · apply launch_sound sound distinct waits phase rfl last
    case indexed =>
      split
      · exact sound.indexed.set found _
      · exact sound.indexed
    case others =>
      intro k q other
      split
      · rw [sound.indexed.mem_set found]
        simp [other]
      · exact Iff.rfl
    case listed =>
      intro q also
      split at also
      · rename_i ends
        obtain ⟨_,rfl⟩ | ⟨other,_⟩ := (sound.indexed.mem_set found _ _ _).mp also
        · refine listed.erase waits (fun again => ?_) (Heap.pop_perm _ _ _).symm
          exact Bool.false_ne_true (again.staying.symm.trans ends)
        · exact absurd rfl other
      · rename_i more
        rw [← sound.indexed.unique member also]
        have staying : ((groups j t).launch chunks id).leaving cfg.chunkSize (work.size j t) = false :=
          Bool.eq_false_iff.mpr more
        exact listed.same (iff_of_true ⟨waits.layer,waits.some,waits.full,staying⟩ waits) rfl
    case present =>
      split
      · exact ⟨_,(sound.indexed.mem_set found _ _ _).mpr (.inl ⟨rfl,rfl⟩)⟩
      · exact ⟨_,member⟩
  · intro k q other
    dsimp only [launch]
    split
    · rw [sound.indexed.mem_set found]
      simp [other]
    · exact Iff.rfl

theorem reduce_positive {id : Nat} {state after : DeficitRoundRobin × Table Nat Nat}
    (reduced : reduce cfg id state j = some after) : cfg.chunkSize ≠ 0 := by
  obtain ⟨_,_,reduced⟩ := Option.bind_eq_some_iff.mp reduced
  obtain ⟨_,_,reduced⟩ := Option.bind_eq_some_iff.mp reduced
  obtain ⟨_,_,reduced⟩ := Option.bind_eq_some_iff.mp reduced
  dsimp only at reduced
  split at reduced
  · cases reduced
  · assumption

theorem reduceAll_sound (distinct : work.DistinctKeys cfg)
    (fits : work.ChunksFit cfg) (id : Nat) (jobs : List Nat)
    (once : jobs.Nodup) (sound : Sound cfg work groups early s)
    (ready : ∀ j ∈ jobs, Offers s j ∧ Resting work groups j) (quantums : Table Nat Nat) :
    (cfg.chunkSize ≠ 0 → ∃ after, jobs.foldlM (reduce cfg id) (s,quantums) = some after) ∧
    ∀ after, jobs.foldlM (reduce cfg id) (s,quantums) = some after →
      (∃ groups', Sound cfg work groups' early after.1) ∧
      ∀ call ∈ after.1.clients.calls, call ∈ s.clients.calls ∨ call.waiter = id := by
  induction jobs generalizing groups s quantums with
  | nil =>
    refine ⟨fun _ => ⟨_,rfl⟩,?_⟩
    rintro _ ⟨⟩
    exact ⟨⟨groups,sound⟩,fun call old => .inl old⟩
  | cons j jobs ih =>
    obtain ⟨absent,once⟩ := List.nodup_cons.mp once
    obtain ⟨⟨pq,member,some⟩,resting⟩ := ready j List.mem_cons_self
    have first (positive : cfg.chunkSize ≠ 0) :=
      reduce_sound sound distinct fits positive member some resting id quantums
    -- the jobs that come later are as they were
    have later (t chunks : Nat) (after : DeficitRoundRobin × Table Nat Nat)
        (others : ∀ i q, i ≠ j → ((i,q) ∈ after.1.readyPqueues ↔ (i,q) ∈ s.readyPqueues)) :
        ∀ i ∈ jobs, Offers after.1 i ∧
          Resting work (setGroup groups j t ((groups j t).launch chunks id)) i := by
      intro i inside
      have other : i ≠ j := by
        rintro rfl
        exact absent inside
      obtain ⟨⟨q,known,nonempty⟩,rests⟩ := ready i (List.mem_cons_of_mem _ inside)
      refine ⟨⟨q,(others i q other).mpr known,nonempty⟩,fun l layer => ?_⟩
      rw [setGroup_other fun both => other both.1]
      exact rests l layer
    constructor
    · intro positive
      obtain ⟨t,chunks,after,reduced,sound',_,others⟩ := first positive
      obtain ⟨final,rest⟩ := (ih once sound' (later t chunks after others) after.2).1 positive
      exact ⟨final,by rw [List.foldlM_cons,reduced]; exact rest⟩
    · intro final result
      rw [List.foldlM_cons] at result
      obtain ⟨middle,reduced',rest⟩ := Option.bind_eq_some_iff.mp result
      obtain ⟨t,chunks,after,reduced,sound',clients,others⟩ := first (reduce_positive reduced')
      cases reduced'.symm.trans reduced
      have remaining := ih once sound' (later t chunks middle others) middle.2
      obtain ⟨final_sound,calls⟩ := remaining.2 final rest
      refine ⟨final_sound,fun call known => ?_⟩
      rcases calls call known with old | new
      · rw [clients] at old
        rcases List.mem_append.mp old with old | new
        · exact .inl old
        · obtain ⟨entry,_,rfl⟩ := List.mem_map.mp new
          exact .inr rfl
      · exact .inr new

/-- The selected queue is the one at `i`, or that of another job that offers a group. -/
theorem selectIdx_spec (ready : List ReadyPqueue) (quantums : Table Nat Nat) (i : Nat)
    (jids wids : List Nat) :
    selectIdx topo work quantums ready i jids wids = i ∨ ∃ j pq,
      ready[selectIdx topo work quantums ready i jids wids]? = some (j,pq) ∧ j ∉ jids ∧
        pq ≠ [] := by
  unfold selectIdx
  refine List.foldlRecOn (motive := fun best : Nat × Nat => best.2 = i ∨ ∃ j pq,
    ready[best.2]? = some (j,pq) ∧ j ∉ jids ∧ pq ≠ []) _ _ (.inl rfl) ?_
  intro best holds entry member
  dsimp only
  split
  · exact holds
  · rename_i additional first
    split
    · rename_i better
      right
      refine ⟨entry.1.1,entry.1.2,?_,better.1,?_⟩
      · exact (List.mem_zipIdx_iff_getElem?.mp (List.mem_of_mem_drop member))
      · intro empty
        rw [empty] at first
        cases first
    · exact holds

theorem involve_spec (s : DeficitRoundRobin) (quantums : Table Nat Nat) (i fuel : Nat)
    (jids wids : List Nat) (once : jids.Nodup) (offers : ∀ j ∈ jids, Offers s j) :
    (involve topo work quantums s.readyPqueues i fuel jids wids).Nodup ∧
    ∀ j ∈ involve topo work quantums s.readyPqueues i fuel jids wids, Offers s j := by
  induction fuel generalizing jids wids with
  | zero => exact ⟨once,offers⟩
  | succ fuel ih =>
    simp only [involve]
    rcases selectIdx_spec s.readyPqueues quantums i jids wids with same | ⟨j,pq,found,fresh,some⟩
    · rw [if_pos same]
      exact ⟨once,offers⟩
    · split
      · exact ⟨once,offers⟩
      · rw [found]
        apply ih
        · exact List.nodup_append.mpr ⟨once,List.nodup_singleton _,by
            intro k member l same
            rw [List.mem_singleton.mp same]
            rintro rfl
            exact fresh member⟩
        · intro k member
          rcases List.mem_append.mp member with old | new
          · exact offers k old
          · rw [List.mem_singleton.mp new]
            exact ⟨pq,List.mem_of_getElem? found,some⟩

theorem scan_spec (scanned : s.scan i = some k) :
    ∃ j pq, s.readyPqueues[k]? = some (j,pq) ∧ pq ≠ [] := by
  obtain ⟨l,found,rfl⟩ := Option.map_eq_some_iff.mp scanned
  obtain ⟨inside,some,_⟩ := List.findIdx?_eq_some_iff_getElem.mp found
  rw [List.getElem_drop] at some
  rw [List.length_drop] at inside
  have bound : i + l < s.readyPqueues.length := by omega
  exact ⟨_,_,List.getElem?_eq_getElem bound,by simpa using some⟩

theorem serve_sound (sound : Sound cfg work groups early s) (distinct : work.DistinctKeys cfg)
    (fits : work.ChunksFit cfg)
    (found : s.readyPqueues[i]? = some (j,pq)) (some : pq ≠ [])
    (resting : ∀ j, Resting work groups j) (id : Nat) (quantums : Table Nat Nat) :
    (cfg.chunkSize ≠ 0 → ∃ after, s.serve cfg topo work id i quantums = .some after) ∧
    ∀ after, s.serve cfg topo work id i quantums = .some after →
      (∃ groups', Sound cfg work groups' early after.1) ∧
      ∀ call ∈ after.1.clients.calls, call ∈ s.clients.calls ∨ call.waiter = id := by
  have member := List.mem_of_getElem? found
  obtain ⟨tensors,rest,rfl⟩ := List.exists_cons_of_ne_nil some
  obtain ⟨t,waits,rfl⟩ := ((sound.listed j _ member).2 tensors).mp List.mem_cons_self
  obtain ⟨w,ws,arrived⟩ := List.exists_cons_of_ne_nil waits.some
  have first : front ((groups j t).entries j t :: rest) =
      .some ⟨⟨w,j,t⟩,(groups j t).turn⟩ := by
    rw [Group.entries,arrived]
    rfl
  obtain ⟨once,offers⟩ := @involve_spec topo work s quantums i s.readyPqueues.length [j]
    (work.widsAllocated j) (List.nodup_singleton j) (by
      intro k inside
      rw [List.mem_singleton.mp inside]
      exact ⟨_,member,some⟩)
  have all := reduceAll_sound distinct fits id _ once sound
    (fun k inside => ⟨offers k inside,resting k⟩) quantums
  simpa only [serve,found,first,Option.bind_eq_bind,Option.bind_some] using all

theorem proceed_sound (sound : Sound cfg work groups early s) (distinct : work.DistinctKeys cfg)
    (fits : work.ChunksFit cfg)
    (idle : s.clients.calls = []) (id i : Nat) (quantums : Table Nat Nat) :
    (cfg.chunkSize ≠ 0 → ∃ after, s.proceed cfg topo work id i quantums = some after) ∧
    ∀ after, s.proceed cfg topo work id i quantums = some after →
      (∃ groups', Sound cfg work groups' early after.1) ∧
      (after.2.isLeaving = true → after.1.clients.calls = []) ∧
      ∀ call ∈ after.1.clients.calls, call.waiter = id := by
  have resting : ∀ j, Resting work groups j := by
    intro j t layer
    have rep := sound.pipelined.consistent.represents j t layer
    have active := sound.active j t layer
    cases phase : (groups j t).phase with
    | gathering chunks => exact ⟨chunks,rfl⟩
    | served => exact absurd phase active.1
    | reducing chunks waiter outstanding =>
      have calls : (s.clients.calls.filter (Call.ofLayer j t)).Perm _ := rep.calls
      rw [idle,List.filter_nil,Group.calls,phase] at calls
      have none := List.map_eq_nil_iff.mp calls.nil_eq.symm
      exact absurd (none ▸ phase) (active.2 chunks waiter)
  unfold proceed
  dsimp only
  split
  · refine ⟨fun _ => ⟨_,rfl⟩,?_⟩
    rintro _ ⟨⟩
    exact ⟨⟨groups,sound⟩,fun _ => idle,by simp [idle]⟩
  · rename_i k scanned
    have nonempty : ∃ j pq, s.readyPqueues[k]? = some (j,pq) ∧ pq ≠ [] := by
      rcases Option.or_eq_some_iff.mp scanned with here | ⟨_,again⟩
      · exact scan_spec here
      · split at again
        · cases again
        · exact scan_spec again
    obtain ⟨j,pq,found,some⟩ := nonempty
    obtain ⟨defined,served⟩ := @serve_sound cfg topo work _ _ _ _ _ _ sound distinct fits found some
      resting id quantums
    constructor
    · intro positive
      obtain ⟨after,taken⟩ := defined positive
      exact ⟨_,by rw [taken]; rfl⟩
    · intro after result
      obtain ⟨middle,taken,result⟩ := Option.bind_eq_some_iff.mp result
      cases result
      obtain ⟨sound',calls⟩ := served _ taken
      refine ⟨sound',(by intro leaving; cases leaving),fun call member => ?_⟩
      rcases calls call member with old | new
      · rw [idle] at old
        cases old
      · exact new

theorem Sound.loop (sound : Sound cfg work groups early s)
    (loop : ServerLoop (Nat × Table Nat Nat)) :
    Sound cfg work groups early { s with loop := loop } :=
  ⟨sound.pipelined,sound.retired,sound.queue,sound.indexed,sound.listed,sound.present,sound.active,
    sound.picked,sound.popped⟩

structure Inv (cfg : Config) (work : Workload) (s : DeficitRoundRobin) : Prop where
  sound : ∃ groups early, Sound cfg work groups early s
  wellFormed : s.loop.WellFormed
  awaited : Awaited s.clients s.loop

theorem initial_inv (cfg : Config) (work : Workload) : Inv cfg work (initial work) where
  sound := ⟨_,_,initial_sound cfg work⟩
  wellFormed := ServerLoop.initial_wellFormed
  awaited _ member := by cases member

namespace Inv

theorem collectiveScheduler (distinct : work.DistinctKeys cfg)
    (fits : work.ChunksFit cfg)
    (sound : Sound cfg work groups early s) (idle : s.clients.calls = []) :
    (cfg.chunkSize ≠ 0 → ∃ t, s.collectiveScheduler cfg topo work = some t) ∧
    ∀ t, s.collectiveScheduler cfg topo work = some t →
      (∃ groups' early', Sound cfg work groups' early' t) ∧ Awaited t.clients t.loop := by
  unfold DeficitRoundRobin.collectiveScheduler
  by_cases empty : s.readyPqueuesAllEmpty = true
  · rw [if_pos empty]
    refine ⟨fun _ => ⟨_,rfl⟩,?_⟩
    rintro _ ⟨⟩
    exact ⟨⟨_,_,sound.loop _⟩,Awaited.of_idle idle⟩
  · rw [if_neg empty]
    obtain ⟨defined,proceeded⟩ := @proceed_sound cfg topo work _ _ _ sound distinct fits idle
      s.loop.coroutines 0 default
    constructor
    · intro positive
      obtain ⟨after,taken⟩ := defined positive
      exact ⟨_,by rw [taken]; rfl⟩
    · intro t result
      obtain ⟨⟨after,position⟩,taken,result⟩ := Option.bind_eq_some_iff.mp result
      cases result
      obtain ⟨⟨groups',sound'⟩,leaves,waiters⟩ := proceeded _ taken
      have loop := (proceed_spec taken).1
      refine ⟨⟨_,_,sound'.loop _⟩,Awaited.of_waiters ?_ leaves waiters⟩
      rw [← loop]
      exact Table.put_same _ _ _

/-- An enqueue leaves its entry in the queue, or moves a full group to its heap. -/
theorem enqueue_cases (sound : Sound cfg work groups early s) (distinct : work.DistinctKeys cfg)
    {r : TensorRef} (may : s.clients.MayEnqueue work r) :
    (s.enqueue cfg topo work r = some (s.push cfg r) ∧
      ∃ groups' early', Sound cfg work groups' early' (s.push cfg r)) ∨
    (s.enqueue cfg topo work r = (if s.loop.loopIsRunning then some ((s.push cfg r).ready cfg r)
      else ((s.push cfg r).ready cfg r).collectiveScheduler cfg topo work) ∧
      ∃ groups' early', Sound cfg work groups' early' ((s.push cfg r).ready cfg r)) := by
  have most := (sound.pipelined.consistent.represents _ _ may.1.2).wellFormed.arrived_le
  change _ ≤ work.numWorkersAllocated r.job at most
  rcases Nat.lt_trichotomy ((groups r.job r.tensorId).arrived.length + 1)
    (work.numWorkersAllocated r.job) with room | fills | more
  · obtain ⟨sound',length⟩ := push_sound sound distinct may room
    exact .inl ⟨if_neg length,_,_,sound'⟩
  · obtain ⟨sound',length⟩ := ready_sound sound distinct may fills
    exact .inr ⟨if_pos length,_,_,sound'⟩
  · obtain ⟨sound',length⟩ := push_early_sound sound distinct may (by omega)
    exact .inl ⟨if_neg length,_,_,sound'⟩

theorem enqueue (inv : Inv cfg work s) (distinct : work.DistinctKeys cfg)
    (fits : work.ChunksFit cfg) {r : TensorRef}
    (may : s.clients.MayEnqueue work r) :
    (cfg.chunkSize ≠ 0 → ∃ t, s.enqueue cfg topo work r = some t) ∧
    ∀ t, s.enqueue cfg topo work r = some t →
      (∃ groups early, Sound cfg work groups early t) ∧ Awaited t.clients t.loop := by
  obtain ⟨groups,early,sound⟩ := inv.sound
  rcases @enqueue_cases cfg topo work _ _ _ sound distinct r may with
    ⟨result,sound'⟩ | ⟨result,groups',early',sound'⟩
  · rw [result]
    refine ⟨fun _ => ⟨_,rfl⟩,?_⟩
    rintro _ ⟨⟩
    exact ⟨sound',inv.awaited⟩
  · rw [result]
    by_cases running : s.loop.loopIsRunning = true
    · rw [if_pos running]
      refine ⟨fun _ => ⟨_,rfl⟩,?_⟩
      rintro _ ⟨⟩
      exact ⟨⟨_,_,sound'⟩,inv.awaited⟩
    · rw [if_neg running]
      exact collectiveScheduler distinct fits sound'
        (inv.awaited.idle_of_stopped inv.wellFormed (Bool.eq_false_iff.mpr running))

theorem resume (inv : Inv cfg work s) (distinct : work.DistinctKeys cfg)
    (fits : work.ChunksFit cfg) {id : Nat} {position}
    (known : s.loop.instances id = some position) (ended : s.clients.awaits id = false) :
    (cfg.chunkSize ≠ 0 → ∃ t, step cfg topo work (.resume id) s = some t) ∧
    ∀ t, step cfg topo work (.resume id) s = some t →
      (∃ groups early, Sound cfg work groups early t) ∧ Awaited t.clients t.loop := by
  obtain ⟨groups,early,sound⟩ := inv.sound
  have idle := inv.awaited.idle_of_resume inv.wellFormed known ended
  cases position with
  | leaving =>
    simp only [step,known]
    refine ⟨fun _ => ⟨_,rfl⟩,?_⟩
    rintro _ ⟨⟩
    exact ⟨⟨_,_,sound.loop _⟩,Awaited.of_idle idle⟩
  | reducing rest =>
    obtain ⟨i,quantums⟩ := rest
    obtain ⟨defined,proceeded⟩ := @proceed_sound cfg topo work _ _ _ sound distinct fits idle
      id (i+1) quantums
    simp only [step,known,if_pos ended]
    constructor
    · intro positive
      obtain ⟨after,taken⟩ := defined positive
      exact ⟨_,by rw [taken]; rfl⟩
    · intro t result
      obtain ⟨⟨after,position⟩,taken,result⟩ := Option.bind_eq_some_iff.mp result
      cases result
      obtain ⟨⟨groups',sound'⟩,leaves,waiters⟩ := proceeded _ taken
      refine ⟨⟨_,_,sound'.loop _⟩,Awaited.of_waiters ?_ leaves waiters⟩
      exact Table.put_same _ _ _

end Inv

theorem step_inv (distinct : work.DistinctKeys cfg)
    (fits : work.ChunksFit cfg) (l : Label)
    (s t : DeficitRoundRobin) (inv : Inv cfg work s) (_ : Runs.anyStep l s)
    (taken : step cfg topo work l s = some t) : Inv cfg work t := by
  have wellFormed := (step_moves l taken).wellFormed inv.wellFormed
  cases l with
  | enqueue r =>
    simp only [step] at taken
    split at taken
    · rename_i may
      obtain ⟨sound,awaited⟩ := (inv.enqueue distinct fits may).2 t taken
      exact ⟨sound,wellFormed,awaited⟩
    · cases taken
  | complete call =>
    obtain ⟨clients,completed,result⟩ := Option.bind_eq_some_iff.mp taken
    cases result
    obtain ⟨called,rfl⟩ := Clients.complete_some completed
    obtain ⟨groups,early,sound⟩ := inv.sound
    exact ⟨complete_sound sound distinct called,wellFormed,inv.awaited.answer _ _⟩
  | resume id =>
    have resumed := taken
    simp only [step] at resumed
    split at resumed
    · cases resumed
    · rename_i known
      have ended := inv.awaited.not_awaits known
      obtain ⟨sound,awaited⟩ := (inv.resume distinct fits known ended).2 t taken
      exact ⟨sound,wellFormed,awaited⟩
    · rename_i known
      split at resumed
      · rename_i ended
        obtain ⟨sound,awaited⟩ := (inv.resume distinct fits known ended).2 t taken
        exact ⟨sound,wellFormed,awaited⟩
      · cases resumed
  | finish w j =>
    simp only [step] at taken
    split at taken
    · rename_i may
      cases taken
      obtain ⟨groups,early,sound⟩ := inv.sound
      exact ⟨⟨_,_,finish_sound sound may⟩,wellFormed,inv.awaited⟩
    · cases taken

/-- Each enqueue is in `queue`, in one group of a ready queue, or was popped for its last chunk;
each picked group was complete; and every step that the clients may take is defined. -/
structure Bookkept (cfg : Config) (topo : Topology) (work : Workload) (s : DeficitRoundRobin) :
    Prop where
  indexed : ∀ j i, s.jidToDequeIdx j = some i ↔ ∃ pq, s.readyPqueues[i]? = some (j,pq)
  grouped : ∀ j pq, (j,pq) ∈ s.readyPqueues → ∀ tensors ∈ pq, ∃ t turn,
    t < (work.model j).length ∧ tensors.Perm ((work.widsAllocated j).map fun w => ⟨⟨w,j,t⟩,turn⟩)
  apart : (s.readyPqueues.flatMap Prod.snd).Nodup
  picked : ∀ pick ∈ s.picks, Uniform cfg work pick
  placed : ∀ r, work.Allocates r → ∀ turn, (s.queue.get (r.key cfg)).count ⟨r,turn⟩ +
    (s.readyPqueues.flatMap Prod.snd).flatten.count ⟨r,turn⟩ + s.poppedEntries.count ⟨r,turn⟩ =
      if turn < s.clients.enqueued r then 1 else 0
  erased : ∀ w j, s.clients.MayFinish work w j → ∀ pq, (j,pq) ∈ s.readyPqueues → pq = []
  defined : 0 < cfg.chunkSize →
    (∀ r, s.clients.MayEnqueue work r → (step cfg topo work (.enqueue r) s).isSome) ∧
    ∀ id position, s.loop.instances id = some position → s.clients.awaits id = false →
      (step cfg topo work (.resume id) s).isSome

section places

theorem mem_pqueues (sound : Sound cfg work groups early s) {tensors : List Entry} :
    tensors ∈ s.readyPqueues.flatMap Prod.snd ↔
      ∃ j t, Waiting cfg work (groups j t) j t ∧ tensors = (groups j t).entries j t := by
  rw [List.mem_flatMap]
  constructor
  · rintro ⟨⟨j,pq⟩,member,inside⟩
    exact ⟨j,((sound.listed j pq member).2 tensors).mp inside⟩
  · rintro ⟨j,t,waits,rfl⟩
    obtain ⟨pq,member⟩ := sound.present j t waits
    exact ⟨_,member,((sound.listed j pq member).2 _).mpr ⟨t,waits,rfl⟩⟩

theorem pqueues_nodup (sound : Sound cfg work groups early s) :
    (s.readyPqueues.flatMap Prod.snd).Nodup := by
  apply List.nodup_flatMap.mpr
  constructor
  · rintro ⟨j,pq⟩ member
    exact (sound.listed j pq member).1
  · apply (List.pairwise_map.mp sound.indexed.distinct).imp_of_mem
    rintro ⟨i,pq⟩ ⟨j,q⟩ first second other tensors inside also
    obtain ⟨t,waits,rfl⟩ := ((sound.listed i pq first).2 tensors).mp inside
    obtain ⟨l,_,same⟩ := ((sound.listed j q second).2 _).mp also
    exact other (waits.layer_eq same).1

theorem entries_nodup {g : Group} (distinct : g.arrived.Nodup) : (g.entries j t).Nodup := by
  apply distinct.map
  intro w v same
  injection same with same
  injection same

theorem count_pqueues (sound : Sound cfg work groups early s) (layer : t < (work.model j).length)
    (turn : Nat) : (s.readyPqueues.flatMap Prod.snd).flatten.count ⟨⟨w,j,t⟩,turn⟩ =
      if (groups j t).leaving cfg.chunkSize (work.size j t) = false ∧
        (groups j t).arrived.length = work.numWorkersAllocated j ∧ w ∈ (groups j t).arrived ∧
        turn = (groups j t).turn then 1 else 0 := by
  have once : (s.readyPqueues.flatMap Prod.snd).flatten.Nodup := by
    apply List.nodup_flatten.mpr
    constructor
    · intro tensors member
      obtain ⟨i,l,waits,rfl⟩ := (mem_pqueues sound).mp member
      exact entries_nodup (sound.pipelined.consistent.represents i l waits.layer).wellFormed.distinct
    · apply (pqueues_nodup sound).pairwise_of_forall_ne
      intro first member second also other e inside within
      obtain ⟨i,l,_,rfl⟩ := (mem_pqueues sound).mp member
      obtain ⟨i',l',_,rfl⟩ := (mem_pqueues sound).mp also
      obtain ⟨rfl,rfl,_⟩ := Group.mem_entries.mp inside
      obtain ⟨rfl,rfl,_⟩ := Group.mem_entries.mp within
      exact other rfl
  rw [once.count]
  apply if_congr _ rfl rfl
  rw [List.mem_flatten]
  constructor
  · rintro ⟨tensors,member,inside⟩
    obtain ⟨i,l,waits,rfl⟩ := (mem_pqueues sound).mp member
    obtain ⟨rfl,rfl,turn,arrived⟩ := Group.mem_entries.mp inside
    exact ⟨waits.staying,waits.full,arrived,turn⟩
  · rintro ⟨staying,full,arrived,rfl⟩
    exact ⟨_,(mem_pqueues sound).mpr ⟨j,t,⟨layer,List.ne_nil_of_mem arrived,full,staying⟩,rfl⟩,
      Group.mem_entries.mpr ⟨rfl,rfl,rfl,arrived⟩⟩

theorem count_entries_worker {g : Group} (distinct : g.arrived.Nodup) (turn : Nat) :
    (g.entries j t).count ⟨⟨w,j,t⟩,turn⟩ = if turn = g.turn ∧ w ∈ g.arrived then 1 else 0 := by
  rw [Group.count_entries distinct]
  simp [Group.mem_entries]

theorem placed (sound : Sound cfg work groups early s) (layer : t < (work.model j).length)
    (worker : w ∈ work.widsAllocated j) (turn : Nat) :
    (s.queue.get (cfg.getKey j t)).count ⟨⟨w,j,t⟩,turn⟩ +
      (s.readyPqueues.flatMap Prod.snd).flatten.count ⟨⟨w,j,t⟩,turn⟩ +
      s.poppedEntries.count ⟨⟨w,j,t⟩,turn⟩ =
        if turn < s.clients.enqueued ⟨w,j,t⟩ then 1 else 0 := by
  have rep := sound.pipelined.consistent.represents j t layer
  rw [sound.queue j t layer,count_pqueues sound layer,sound.popped j t layer w worker,
    sound.pipelined.enqueued_eq layer worker]
  by_cases full : (groups j t).arrived.length = work.numWorkersAllocated j
  · have arrived := rep.mem_arrived full worker
    have ahead : ((groups j t).advance (early j t)).arrived.Nodup :=
      sound.pipelined.distinct j t layer
    rw [content_full _ full,count_entries_worker ahead]
    simp only [Group.advance,Popped,arrived,full,true_and,if_true]
    rcases Bool.eq_false_or_eq_true ((groups j t).leaving cfg.chunkSize (work.size j t)) with
      leaves | stays
    · simp only [leaves,Bool.true_eq_false,false_and,and_true,if_false]
      by_cases member : w ∈ early j t
      · simp only [member,and_true,if_true]
        split_ifs <;> omega
      · simp only [member,and_false,if_false]
        split_ifs <;> omega
    · have nobody := early_nil sound.pipelined layer stays
      simp only [stays,nobody,List.not_mem_nil,and_false,Bool.false_eq_true,if_false,or_false,
        true_and]
      split_ifs <;> omega
  · have room : (groups j t).arrived.length < work.numWorkersAllocated j :=
      Nat.lt_of_le_of_ne rep.wellFormed.arrived_le full
    have phase := sound.pipelined.gathering_of_room layer room
    have nobody := sound.pipelined.early_nil layer phase
    rw [content_room _ full,count_entries_worker rep.wellFormed.distinct]
    simp only [full,nobody,Popped,Group.leaving,phase,List.not_mem_nil,false_and,and_false,
      Bool.false_eq_true,or_false,if_false,Nat.add_zero]
    by_cases arrived : w ∈ (groups j t).arrived
    · simp only [arrived,and_true,if_true]
      split_ifs <;> omega
    · simp only [arrived,and_false,if_false]
      split_ifs <;> omega

theorem grouped (sound : Sound cfg work groups early s) (member : (j,pq) ∈ s.readyPqueues)
    (inside : tensors ∈ pq) : ∃ t turn, t < (work.model j).length ∧
      tensors.Perm ((work.widsAllocated j).map fun w => ⟨⟨w,j,t⟩,turn⟩) := by
  obtain ⟨t,waits,rfl⟩ := ((sound.listed j pq member).2 tensors).mp inside
  have rep := sound.pipelined.consistent.represents j t waits.layer
  exact ⟨t,(groups j t).turn,waits.layer,
    (Group.full_of_length _ _ rep.wellFormed waits.full).map _⟩

end places

theorem Inv.bookkept (inv : Inv cfg work s) (distinct : work.DistinctKeys cfg)
    (fits : work.ChunksFit cfg) :
    Bookkept cfg topo work s := by
  obtain ⟨groups,early,sound⟩ := inv.sound
  constructor
  case indexed => exact sound.indexed.exact
  case grouped => exact fun j pq member tensors inside => DeficitRoundRobin.grouped sound member inside
  case apart => exact pqueues_nodup sound
  case picked => exact sound.picked
  case placed => exact fun r known turn => DeficitRoundRobin.placed sound known.2 known.1 turn
  case erased => exact fun w j may pq member => pqueue_of_mayFinish sound may member
  case defined =>
    intro positive
    constructor
    · intro r may
      obtain ⟨t,taken⟩ := (inv.enqueue distinct fits may).1 (by omega)
      rw [step,if_pos may,taken]
      rfl
    · intro id position known ended
      obtain ⟨t,taken⟩ := (inv.resume distinct fits known ended).1 (by omega)
      rw [taken]
      rfl

/-- In every run the index map, the ready queues and the picked groups are in order, and a tear-down
erases an empty queue. -/
theorem deficit_round_robin_bookkeeping (cfg : Config) (topo : Topology) (work : Workload)
    (distinct : work.DistinctKeys cfg)
    (fits : work.ChunksFit cfg) (s : DeficitRoundRobin)
    (run : Runs.Run (step cfg topo work) Runs.anyStep (initial work) s) :
    Bookkept cfg topo work s := by
  have inv := run.invariant (step_inv distinct fits) (initial_inv cfg work)
  exact inv.bookkept distinct fits

/-- Two rounds of the first pass; then one worker is in the second pass. -/
theorem deficit_round_robin_bookkeeping_second_pass :
    ∃ s, s.picks.length = 2 ∧ s.clients.enqueued ⟨0,0,0⟩ = 2 ∧
      Bookkept oneLayerConfig .custom oneLayer s := by
  have taken : (Runs.exec (step oneLayerConfig .custom oneLayer) Runs.anyStep
      (firstPass ++ [.enqueue ⟨0,0,0⟩]) (initial oneLayer)).map
      (fun s => (s.picks.length,s.clients.enqueued ⟨0,0,0⟩)) = some (2,2) := by
    decide
  obtain ⟨s,run,view⟩ := Runs.exists_run_of_exec taken
  obtain ⟨picks,enqueued⟩ := Prod.mk.inj view
  exact ⟨s,picks,enqueued,deficit_round_robin_bookkeeping _ _ _ oneLayer_distinctKeys
    oneLayer_chunksFit s run⟩

end DeficitRoundRobin
end CloudSim
