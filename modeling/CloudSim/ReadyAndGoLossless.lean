import CloudSim.ReadyAndGo

/-! What `ReadyAndGo` guarantees while no worker enqueues a tensor whose full group is still in
the queue. -/
namespace CloudSim

namespace ReadyAndGo

/-- The calls that completed groups of different layers, the lock of their job, and the groups. -/
structure Suspended (work : Workload) (groups : Nat → Nat → Group) (mutex : Nat → Mutex Nat)
    (id : Nat) (e : Enqueue) : Prop where
  allocated : work.Allocates e.entry.tensor
  full : (groups e.entry.tensor.job e.entry.tensor.tensorId).arrived.length =
    work.numWorkersAllocated e.entry.tensor.job
  requested : e.stage = .requested → id ∈ (mutex e.entry.tensor.job).waiting
  owner : e.stage ≠ .requested → (mutex e.entry.tensor.job).owner = some id
  gathering : e.stage ≠ .reducing →
    (groups e.entry.tensor.job e.entry.tensor.tensorId).phase = .gathering 0
  reducing : e.stage = .reducing → ∃ outstanding,
    (groups e.entry.tensor.job e.entry.tensor.tensorId).phase = .reducing 0 id outstanding

structure Sound (cfg : Config) (work : Workload) (groups : Nat → Nat → Group)
    (mutex : Nat → Mutex Nat) (s : ReadyAndGo) : Prop where
  consistent : Consistent work 0 groups s.clients
  queue : ∀ j t, t < (work.model j).length →
    s.queue.get (cfg.getKey j t) = (groups j t).entries j t
  locks : ∀ j, s.jobLocks.get j = (mutex j).resource
  suspended : ∀ id e, s.enqueues id = some e → Suspended work groups mutex id e
  single : ∀ id e other f, s.enqueues id = some e → s.enqueues other = some f →
    e.entry.tensor.job = f.entry.tensor.job → e.entry.tensor.tensorId = f.entry.tensor.tensorId →
    id = other
  waiting : ∀ j id, id ∈ (mutex j).waiting →
    ∃ e, s.enqueues id = some e ∧ e.entry.tensor.job = j ∧ e.stage = .requested
  owned : ∀ j id, (mutex j).owner = some id →
    ∃ e, s.enqueues id = some e ∧ e.entry.tensor.job = j ∧ e.stage ≠ .requested
  waitingDistinct : ∀ j, (mutex j).waiting.Nodup
  fresh : ∀ id, s.coroutines ≤ id → s.enqueues id = none
  whole : ∀ entries ∈ s.collectives, ∃ j t turn, t < (work.model j).length ∧
    entries.Perm ((work.widsAllocated j).map fun w => ⟨⟨w,j,t⟩,turn⟩)
  collected : ∀ j t, t < (work.model j).length → ∀ w ∈ work.widsAllocated j, ∀ turn,
    s.collectives.flatten.count ⟨⟨w,j,t⟩,turn⟩ =
      if turn < (groups j t).turn ∨ turn = (groups j t).turn ∧ (groups j t).phase ≠ .gathering 0
      then 1 else 0
  erased : ∀ e ∈ s.erased, e ∈ s.clients.served

def Attended (work : Workload) (groups : Nat → Nat → Group) (s : ReadyAndGo) : Prop :=
  ∀ j t, t < (work.model j).length → (groups j t).arrived ≠ [] →
    (groups j t).arrived.length = work.numWorkersAllocated j →
    ∃ id e, s.enqueues id = some e ∧ e.entry.tensor.job = j ∧ e.entry.tensor.tensorId = t

variable {cfg : Config} {work : Workload} {groups : Nat → Nat → Group} {mutex : Nat → Mutex Nat}
  {s : ReadyAndGo}

theorem initial_sound (cfg : Config) (work : Workload) :
    Sound cfg work (fun _ _ => {}) (fun _ => .free) (initial work) where
  consistent := Consistent.initial work 0
  queue _ _ _ := rfl
  locks _ := rfl
  suspended _ _ known := by cases known
  single _ _ _ _ known := by cases known
  waiting _ _ member := by cases member
  owned _ _ known := by cases known
  waitingDistinct _ := List.nodup_nil
  fresh _ _ := rfl
  whole _ member := by cases member
  collected _ _ _ _ _ turn := by simp [initial]
  erased _ member := by cases member

theorem Suspended.transfer {id : Nat} {e : Enqueue} (suspended : Suspended work groups mutex id e)
    {groups' : Nat → Nat → Group}
    (same : groups' e.entry.tensor.job e.entry.tensor.tensorId =
      groups e.entry.tensor.job e.entry.tensor.tensorId) :
    Suspended work groups' mutex id e :=
  ⟨suspended.allocated,same ▸ suspended.full,suspended.requested,suspended.owner,
    same ▸ suspended.gathering,same ▸ suspended.reducing⟩

theorem push_sound (distinct : work.DistinctKeys cfg) (sound : Sound cfg work groups mutex s)
    {r : TensorRef} (may : s.clients.MayEnqueue work r)
    (room : (groups r.job r.tensorId).arrived.length < work.numWorkersAllocated r.job) :
    Sound cfg work
      (setGroup groups r.job r.tensorId ((groups r.job r.tensorId).arrive r.machine)) mutex
      (s.push cfg r) := by
  have layer := may.1.2
  obtain ⟨first,_,turn⟩ := (sound.consistent.represents _ _ layer).of_room may room
  refine { sound with
    consistent := sound.consistent.enqueue may room
    queue := fun j t inside => ?_
    suspended := fun id e known => ?_
    collected := fun j t inside w member k => ?_ }
  · by_cases same : j = r.job ∧ t = r.tensorId
    · obtain ⟨rfl,rfl⟩ := same
      simp [push,TensorRef.key,sound.queue _ _ layer,Group.entries,Group.arrive,
        Clients.nextEntry,turn]
    · have other : cfg.getKey j t ≠ r.key cfg := fun equal =>
        same (distinct j t r.job r.tensorId inside layer equal)
      rw [setGroup_other same]
      simpa [push,other] using sound.queue j t inside
  · have old := sound.suspended id e known
    refine old.transfer (setGroup_other fun same => ?_)
    have full := old.full
    rw [same.1,same.2] at full
    omega
  · have old := sound.collected j t inside w member k
    by_cases same : j = r.job ∧ t = r.tensorId
    · obtain ⟨rfl,rfl⟩ := same
      simpa [push,Group.arrive] using old
    · simpa [push,setGroup_other same] using old

def setMutex (mutex : Nat → Mutex Nat) (j : Nat) (m : Mutex Nat) : Nat → Mutex Nat :=
  fun i => if i = j then m else mutex i

@[simp] theorem setMutex_same (mutex : Nat → Mutex Nat) (j : Nat) (m : Mutex Nat) :
    setMutex mutex j m j = m := by simp [setMutex]

theorem setMutex_other {mutex : Nat → Mutex Nat} {m : Mutex Nat} (other : i ≠ j) :
    setMutex mutex j m i = mutex i := by simp [setMutex,other]

def requestStage : Mutex Nat → Stage
  | .free => .granted
  | .held _ _ => .requested

theorem request_enqueues (s : ReadyAndGo) (entry : Entry) {m : Mutex Nat}
    (lock : s.jobLocks.get entry.tensor.job = m.resource) (id : Nat) :
    (s.request entry).enqueues id =
      if id = s.coroutines then some ⟨entry,requestStage m⟩ else s.enqueues id := by
  simp only [request,lock,m.resource_request]
  cases m with
  | free => by_cases new : id = s.coroutines <;> simp [setStage,new,Mutex.granted,requestStage]
  | held => by_cases new : id = s.coroutines <;> simp [setStage,new,Mutex.granted,requestStage]

theorem request_locks (s : ReadyAndGo) (entry : Entry) {mutex : Nat → Mutex Nat}
    (locks : ∀ j, s.jobLocks.get j = (mutex j).resource) (j : Nat) :
    (s.request entry).jobLocks.get j =
      (setMutex mutex entry.tensor.job
        ((mutex entry.tensor.job).request s.coroutines) j).resource := by
  simp only [request,locks,Mutex.resource_request]
  by_cases here : j = entry.tensor.job
  · subst here; simp
  · simp [here,setMutex_other here,locks]

/-- The call that requests the lock is granted it, or waits. -/
theorem request_suspended_new {entry : Entry} (allocated : work.Allocates entry.tensor)
    (phase : (groups entry.tensor.job entry.tensor.tensorId).phase = .gathering 0)
    (full : (groups entry.tensor.job entry.tensor.tensorId).arrived.length =
      work.numWorkersAllocated entry.tensor.job) :
    Suspended work groups
      (setMutex mutex entry.tensor.job ((mutex entry.tensor.job).request s.coroutines))
      s.coroutines ⟨entry,requestStage (mutex entry.tensor.job)⟩ := by
  cases lock : mutex entry.tensor.job with
  | free =>
    exact ⟨allocated,full,by simp [requestStage],by simp [Mutex.request,Mutex.owner],
      fun _ => phase,by simp [requestStage]⟩
  | held =>
    exact ⟨allocated,full,by simp [Mutex.request,Mutex.waiting],by simp [requestStage],
      fun _ => phase,by simp [requestStage]⟩

theorem Suspended.request {entry : Entry} {id : Nat} {e : Enqueue} (old : Suspended work groups mutex id e) :
    Suspended work groups
      (setMutex mutex entry.tensor.job ((mutex entry.tensor.job).request s.coroutines)) id e := by
  by_cases here : e.entry.tensor.job = entry.tensor.job
  · refine ⟨old.allocated,old.full,fun stage => ?_,fun stage => ?_,old.gathering,old.reducing⟩
    · have member := old.requested stage
      rw [here] at member ⊢
      rw [setMutex_same]
      cases lock : mutex entry.tensor.job with
      | free => simp [lock,Mutex.waiting] at member
      | held => rw [lock] at member; exact List.mem_append_left _ member
    · have mine := old.owner stage
      rw [here] at mine ⊢
      rw [setMutex_same]
      cases lock : mutex entry.tensor.job with
      | free => simp [lock,Mutex.owner] at mine
      | held => rw [lock] at mine; exact mine
  · exact ⟨old.allocated,old.full,by rw [setMutex_other here]; exact old.requested,
      by rw [setMutex_other here]; exact old.owner,old.gathering,old.reducing⟩

section request
variable (sound : Sound cfg work groups mutex s) {entry : Entry}
include sound

/-- A request changes none of the suspended calls. -/
theorem request_kept {id : Nat} {e : Enqueue} (known : s.enqueues id = some e) :
    (s.request entry).enqueues id = some e := by
  have fresh := sound.fresh s.coroutines (Nat.le_refl _)
  rw [request_enqueues s entry (sound.locks entry.tensor.job),
    if_neg (fun new => by rw [new,fresh] at known; cases known)]
  exact known

theorem request_single (alone : ∀ id e, s.enqueues id = some e →
      ¬(e.entry.tensor.job = entry.tensor.job ∧ e.entry.tensor.tensorId = entry.tensor.tensorId))
    {id other : Nat} {e f : Enqueue} (known : (s.request entry).enqueues id = some e)
    (also : (s.request entry).enqueues other = some f)
    (sameJob : e.entry.tensor.job = f.entry.tensor.job)
    (sameLayer : e.entry.tensor.tensorId = f.entry.tensor.tensorId) : id = other := by
  rw [request_enqueues s entry (sound.locks entry.tensor.job)] at known also
  by_cases new : id = s.coroutines
  · by_cases newer : other = s.coroutines
    · rw [new,newer]
    · rw [if_pos new,Option.some.injEq] at known
      rw [if_neg newer] at also
      subst known
      exact absurd ⟨sameJob.symm,sameLayer.symm⟩ (alone other f also)
  · by_cases newer : other = s.coroutines
    · rw [if_pos newer,Option.some.injEq] at also
      rw [if_neg new] at known
      subst also
      exact absurd ⟨sameJob,sameLayer⟩ (alone id e known)
    · rw [if_neg new] at known
      rw [if_neg newer] at also
      exact sound.single id e other f known also sameJob sameLayer

theorem request_waiting {j id : Nat} (member : id ∈ (setMutex mutex entry.tensor.job
      ((mutex entry.tensor.job).request s.coroutines) j).waiting) :
    ∃ e, (s.request entry).enqueues id = some e ∧ e.entry.tensor.job = j ∧
      e.stage = .requested := by
  have lookup := request_enqueues s entry (sound.locks entry.tensor.job)
  by_cases here : j = entry.tensor.job
  · subst here
    rw [setMutex_same] at member
    cases lock : mutex entry.tensor.job with
    | free => simp [lock,Mutex.request,Mutex.waiting] at member
    | held owner waiting =>
      have old := sound.waiting entry.tensor.job id
      simp only [lock,Mutex.request,Mutex.waiting,List.mem_append,List.mem_singleton] at member old
      rcases member with earlier | rfl
      · obtain ⟨e,known,facts⟩ := old earlier
        exact ⟨e,request_kept sound known,facts⟩
      · exact ⟨⟨entry,.requested⟩,by rw [lookup,lock,if_pos rfl]; rfl,rfl,rfl⟩
  · rw [setMutex_other here] at member
    obtain ⟨e,known,facts⟩ := sound.waiting j id member
    exact ⟨e,request_kept sound known,facts⟩

theorem request_owned {j id : Nat} (known : (setMutex mutex entry.tensor.job
      ((mutex entry.tensor.job).request s.coroutines) j).owner = some id) :
    ∃ e, (s.request entry).enqueues id = some e ∧ e.entry.tensor.job = j ∧
      e.stage ≠ .requested := by
  have lookup := request_enqueues s entry (sound.locks entry.tensor.job)
  by_cases here : j = entry.tensor.job
  · subst here
    rw [setMutex_same] at known
    cases lock : mutex entry.tensor.job with
    | free =>
      simp only [lock,Mutex.request,Mutex.owner,Option.some.injEq] at known
      subst known
      exact ⟨⟨entry,.granted⟩,by rw [lookup,lock,if_pos rfl]; rfl,rfl,by simp⟩
    | held owner waiting =>
      have old := sound.owned entry.tensor.job id
      simp only [lock,Mutex.request,Mutex.owner] at known old
      obtain ⟨e,known,facts⟩ := old known
      exact ⟨e,request_kept sound known,facts⟩
  · rw [setMutex_other here] at known
    obtain ⟨e,known,facts⟩ := sound.owned j id known
    exact ⟨e,request_kept sound known,facts⟩

/-- The number of the new call is not in line yet. -/
theorem request_waitingDistinct (j : Nat) : (setMutex mutex entry.tensor.job
    ((mutex entry.tensor.job).request s.coroutines) j).waiting.Nodup := by
  by_cases here : j = entry.tensor.job
  · subst here
    have distinct := sound.waitingDistinct entry.tensor.job
    have old := sound.waiting entry.tensor.job s.coroutines
    rw [setMutex_same]
    cases lock : mutex entry.tensor.job with
    | free => exact List.nodup_nil
    | held owner waiting =>
      simp only [lock,Mutex.request,Mutex.waiting] at distinct old ⊢
      refine List.nodup_append.mpr ⟨distinct,List.nodup_singleton _,?_⟩
      intro a member b same
      rw [List.mem_singleton.mp same]
      rintro rfl
      obtain ⟨e,known,_⟩ := old member
      rw [sound.fresh s.coroutines (Nat.le_refl _)] at known
      cases known
  · rw [setMutex_other here]
    exact sound.waitingDistinct j

end request

theorem request_sound (sound : Sound cfg work groups mutex s) (entry : Entry)
    (allocated : work.Allocates entry.tensor)
    (phase : (groups entry.tensor.job entry.tensor.tensorId).phase = .gathering 0)
    (full : (groups entry.tensor.job entry.tensor.tensorId).arrived.length =
      work.numWorkersAllocated entry.tensor.job)
    (alone : ∀ id e, s.enqueues id = some e →
      ¬(e.entry.tensor.job = entry.tensor.job ∧ e.entry.tensor.tensorId = entry.tensor.tensorId)) :
    Sound cfg work groups
      (setMutex mutex entry.tensor.job ((mutex entry.tensor.job).request s.coroutines))
      (s.request entry) where
  consistent := sound.consistent
  queue := sound.queue
  locks := request_locks s entry sound.locks
  suspended id e known := by
    rw [request_enqueues s entry (sound.locks entry.tensor.job)] at known
    by_cases new : id = s.coroutines
    · subst new
      simp only [if_true,Option.some.injEq] at known
      subst known
      exact request_suspended_new allocated phase full
    · rw [if_neg new] at known
      exact (sound.suspended id e known).request
  single _ _ _ _ known also := request_single sound alone known also
  waiting _ _ member := request_waiting sound member
  owned _ _ known := request_owned sound known
  waitingDistinct := request_waitingDistinct sound
  fresh id later := by
    have beyond : s.coroutines + 1 ≤ id := later
    rw [request_enqueues s entry (sound.locks entry.tensor.job),if_neg (by omega)]
    exact sound.fresh id (by omega)
  whole := sound.whole
  collected := sound.collected
  erased := sound.erased

theorem setStage_entry {enqueues : Table Nat Enqueue} {e : Enqueue}
    (known : setStage enqueues ids stage one = some e) :
    ∃ f, enqueues one = some f ∧ f.entry = e.entry := by
  unfold setStage at known
  split at known
  · obtain ⟨f,found,rfl⟩ := Option.map_eq_some_iff.mp known
    exact ⟨f,found,rfl⟩
  · exact ⟨e,known,rfl⟩

theorem start_enqueues (cfg : Config) {id : Nat} {e : Enqueue} (known : s.enqueues id = some e)
    (other : Nat) : (s.start cfg id e).enqueues other =
      if other = id then some { e with stage := .reducing } else s.enqueues other := by
  by_cases same : other = id
  · subst same; simp [start,setStage,known]
  · simp [start,setStage,same]

theorem start_sound (sound : Sound cfg work groups mutex s) {id : Nat} {e : Enqueue}
    (known : s.enqueues id = some e) (granted : e.stage = .granted) :
    Sound cfg work
      (setGroup groups e.entry.tensor.job e.entry.tensor.tensorId
        ((groups e.entry.tensor.job e.entry.tensor.tensorId).launch 0 id)) mutex
      (s.start cfg id e) := by
  obtain ⟨⟨⟨v,j,t⟩,k⟩,_⟩ := e
  cases granted
  have old := sound.suspended id _ known
  have layer : t < (work.model j).length := old.allocated.2
  have phase : (groups j t).phase = .gathering 0 := old.gathering (by simp)
  have full : (groups j t).arrived.length = work.numWorkersAllocated j := old.full
  have owner : (mutex j).owner = some id := old.owner (by simp)
  have rep := sound.consistent.represents j t layer
  have entries : s.queue.get (cfg.getKey j t) = (groups j t).entries j t := sound.queue j t layer
  have lookup := start_enqueues cfg known
  refine
    { consistent := ?_, queue := fun i l inside => ?_, locks := sound.locks,
      suspended := fun other f found => ?_, single := fun one e two f found also => ?_,
      waiting := fun i other member => ?_, owned := fun i other found => ?_,
      waitingDistinct := sound.waitingDistinct, fresh := fun other later => ?_,
      whole := fun collective member => ?_, collected := fun i l inside w member turn => ?_,
      erased := sound.erased }
  · have launched := sound.consistent.launch layer phase full id
    rw [← entries] at launched
    exact launched
  · have same := sound.queue i l inside
    by_cases here : i = j ∧ l = t
    · obtain ⟨rfl,rfl⟩ := here
      rw [setGroup_same]
      exact same
    · rw [setGroup_other here]
      exact same
  · rw [lookup] at found
    by_cases same : other = id
    · subst same
      rw [if_pos rfl] at found
      cases found
      refine ⟨old.allocated,?_,by simp,fun _ => owner,by simp,
        fun _ => ⟨(groups j t).arrived,?_⟩⟩
      · simpa using full
      · rw [setGroup_same]; rfl
    · rw [if_neg same] at found
      refine (sound.suspended other f found).transfer (setGroup_other fun here => same ?_)
      exact sound.single other f id _ found known here.1 here.2
  · obtain ⟨e',before,same⟩ := setStage_entry found
    obtain ⟨f',before',same'⟩ := setStage_entry also
    rw [← same,← same']
    exact sound.single one e' two f' before before'
  · obtain ⟨f,found,ofJob,requested⟩ := sound.waiting i other member
    refine ⟨f,?_,ofJob,requested⟩
    rw [lookup,if_neg]
    · exact found
    · rintro rfl
      rw [known] at found
      cases found
      cases requested
  · obtain ⟨f,here,ofJob,stage⟩ := sound.owned i other found
    by_cases same : other = id
    · subst same
      rw [known] at here
      cases here
      exact ⟨⟨_,.reducing⟩,by rw [lookup,if_pos rfl],ofJob,by simp⟩
    · exact ⟨f,by rw [lookup,if_neg same]; exact here,ofJob,stage⟩
  · have absent := sound.fresh other later
    rw [lookup,if_neg]
    · exact absent
    · rintro rfl
      rw [known] at absent
      cases absent
  · rcases List.mem_append.mp member with earlier | now
    · exact sound.whole collective earlier
    · rw [List.mem_singleton.mp now]
      refine ⟨j,t,(groups j t).turn,layer,?_⟩
      change (s.queue.get (cfg.getKey j t)).Perm _
      rw [entries]
      exact (Group.full_of_length 0 _ rep.wellFormed full).map _
  · have old := sound.collected i l inside w member turn
    have added : (s.start cfg id ⟨⟨⟨v,j,t⟩,k⟩,.granted⟩).collectives.flatten =
        s.collectives.flatten ++ (groups j t).entries j t := by
      simp only [start,List.flatten_append,List.flatten_singleton]
      rw [← entries]
      rfl
    rw [added,List.count_append,old]
    exact rep.started_launch phase full member turn id l

theorem complete_sound (sound : Sound cfg work groups mutex s) (called : call ∈ s.clients.calls) :
    ∃ groups', Sound cfg work groups' mutex { s with clients := s.clients.answer 0 call } ∧
      ∀ j t, (groups' j t).arrived = (groups j t).arrived := by
  obtain ⟨j,t,w,chunks,waiter,outstanding,layer,phase,member,rfl,consistent⟩ :=
    sound.consistent.answer called
  refine ⟨setGroup groups j t ((groups j t).answer chunks waiter outstanding w),?_,fun i k => ?_⟩
  · refine { sound with
      consistent := consistent
      queue := fun i k inside => ?_
      suspended := fun id e known => ?_
      collected := fun i k inside v worker turn => ?_
      erased := fun e member => ?_ }
    · have same := sound.queue i k inside
      by_cases here : i = j ∧ k = t
      · obtain ⟨rfl,rfl⟩ := here
        rw [setGroup_same]
        exact same
      · rw [setGroup_other here]
        exact same
    · have old := sound.suspended id e known
      by_cases here : e.entry.tensor.job = j ∧ e.entry.tensor.tensorId = t
      · obtain ⟨rfl,rfl⟩ := here
        refine ⟨old.allocated,by simpa using old.full,old.requested,old.owner,fun stage => ?_,
          fun stage => ⟨outstanding.erase w,?_⟩⟩
        · have first := old.gathering stage
          rw [phase] at first
          cases first
        · obtain ⟨_,same⟩ := old.reducing stage
          rw [phase] at same
          cases same
          simp
      · exact old.transfer (setGroup_other here)
    · have old := sound.collected i k inside v worker turn
      by_cases here : i = j ∧ k = t
      · obtain ⟨rfl,rfl⟩ := here
        simpa [phase] using old
      · rw [setGroup_other here]
        exact old
    · exact Clients.mem_answer_served 0 _ _ (sound.erased e member)
  · by_cases here : i = j ∧ k = t
    · obtain ⟨rfl,rfl⟩ := here
      simp
    · rw [setGroup_other here]

theorem finish_sound (sound : Sound cfg work groups mutex s) (w j : Nat) :
    Sound cfg work groups mutex { s with clients := s.clients.finish w j } :=
  { sound with consistent := sound.consistent.finish w j }

/-- The suspended calls when `id` has given the lock of its job back. -/
def handOver (enqueues : Table Nat Enqueue) (id : Nat) (waiting : List Nat) : Table Nat Enqueue :=
  setStage (enqueues.erase id) (waiting.take 1) .granted

theorem resume_enqueues (cfg : Config) (id : Nat) (e : Enqueue) {waiting : List Nat}
    (lock : s.jobLocks.get e.entry.tensor.job = (Mutex.held id waiting).resource) :
    (s.resume cfg id e).enqueues = handOver s.enqueues id waiting := by
  simp only [resume,handOver,lock,Mutex.resource_release]

theorem resume_locks (cfg : Config) {id : Nat} {e : Enqueue} {waiting : List Nat}
    (locks : ∀ j, s.jobLocks.get j = (mutex j).resource)
    (lock : mutex e.entry.tensor.job = .held id waiting) (j : Nat) :
    (s.resume cfg id e).jobLocks.get j =
      (setMutex mutex e.entry.tensor.job (Mutex.held id waiting).release j).resource := by
  simp only [resume,locks,lock,Mutex.resource_release]
  by_cases here : j = e.entry.tensor.job
  · subst here; simp
  · simp [here,setMutex_other here,locks]

theorem handOver_other {enqueues : Table Nat Enqueue} {id other : Nat} (differ : other ≠ id)
    (next : other ∉ waiting.take 1) : handOver enqueues id waiting other = enqueues other := by
  simp [handOver,setStage,next,differ]

theorem handOver_entry {enqueues : Table Nat Enqueue} {id other : Nat}
    (found : handOver enqueues id waiting other = some f) :
    other ≠ id ∧ ∃ g, enqueues other = some g ∧ g.entry = f.entry := by
  obtain ⟨g,before,same⟩ := setStage_entry found
  have differ : other ≠ id := by
    rintro rfl
    simp at before
  rw [Table.erase_other _ differ] at before
  exact ⟨differ,g,before,same⟩

theorem awaited_none (sound : Sound cfg work groups mutex s) {j t id : Nat}
    (layer : t < (work.model j).length) (phase : (groups j t).phase = .reducing 0 id outstanding)
    (done : s.clients.awaits id = false) : outstanding = [] := by
  cases outstanding with
  | nil => rfl
  | cons w rest =>
    have calls := (sound.consistent.represents j t layer).calls
    rw [Group.calls,phase] at calls
    have member := calls.mem_iff.mpr List.mem_cons_self
    have called := (List.mem_filter.mp member).1
    have waits : s.clients.awaits id = true := List.any_eq_true.mpr ⟨_,called,by simp⟩
    rw [done] at waits
    cases waits

section resume
variable (sound : Sound cfg work groups mutex s) {id : Nat} {e : Enqueue} {waiting : List Nat}
  (known : s.enqueues id = some e) (stage : e.stage = .reducing)
  (lock : mutex e.entry.tensor.job = .held id waiting)
include sound known stage lock

theorem resume_waiter (member : other ∈ waiting) : other ≠ id ∧ ∃ f,
    s.enqueues other = some f ∧ f.entry.tensor.job = e.entry.tensor.job ∧ f.stage = .requested := by
  obtain ⟨f,found,ofJob,requested⟩ :=
    sound.waiting e.entry.tensor.job other (by rw [lock]; exact member)
  refine ⟨?_,f,found,ofJob,requested⟩
  rintro rfl
  rw [known] at found
  cases found
  rw [stage] at requested
  cases requested

theorem resume_granted (next : other ∈ waiting.take 1) : other ≠ id ∧ ∃ g,
    s.enqueues other = some g ∧ g.entry.tensor.job = e.entry.tensor.job ∧ g.stage = .requested ∧
      handOver s.enqueues id waiting other = some { g with stage := .granted } := by
  obtain ⟨differ,g,before,ofJob,requested⟩ :=
    resume_waiter sound known stage lock (List.mem_of_mem_take next)
  exact ⟨differ,g,before,ofJob,requested,by simp [handOver,setStage,next,differ,before]⟩

theorem resume_elsewhere (before : s.enqueues other = some g)
    (elsewhere : g.entry.tensor.job ≠ e.entry.tensor.job) :
    handOver s.enqueues id waiting other = some g := by
  have differ : other ≠ id := by
    rintro rfl
    rw [known] at before
    cases before
    exact elsewhere rfl
  have next : other ∉ waiting.take 1 := by
    intro next
    obtain ⟨_,f,found,ofThis,_⟩ :=
      resume_waiter sound known stage lock (List.mem_of_mem_take next)
    rw [before] at found
    cases found
    exact elsewhere ofThis
  rw [handOver_other differ next,before]

omit stage lock in
theorem resume_group (before : s.enqueues other = some f) (differ : other ≠ id) (served : Group) :
    setGroup groups e.entry.tensor.job e.entry.tensor.tensorId served f.entry.tensor.job
      f.entry.tensor.tensorId = groups f.entry.tensor.job f.entry.tensor.tensorId :=
  setGroup_other fun here => differ (sound.single other f id e before known here.1 here.2)

/-- Of the calls that wait, the first is granted and the others stay. -/
theorem resume_suspended (found : handOver s.enqueues id waiting other = some f) {served : Group} :
    Suspended work (setGroup groups e.entry.tensor.job e.entry.tensor.tensorId served)
      (setMutex mutex e.entry.tensor.job (Mutex.held id waiting).release) other f := by
  by_cases next : other ∈ waiting.take 1
  · obtain ⟨differ,g,before,ofJob,requested,granted⟩ := resume_granted sound known stage lock next
    obtain rfl := Option.some.inj (granted.symm.trans found)
    have head : (Mutex.held id waiting).release.owner = some other := by
      cases waiting with
      | nil => cases next
      | cons first rest => rw [List.mem_singleton.mp next]; rfl
    have moved := (sound.suspended other g before).transfer
      (resume_group sound known before differ served)
    refine ⟨moved.allocated,moved.full,by simp,fun _ => ?_,
      fun _ => moved.gathering (by simp [requested]),by simp⟩
    simp only [ofJob,setMutex_same]
    exact head
  · obtain ⟨differ,_⟩ := handOver_entry found
    rw [handOver_other differ next] at found
    have was := sound.suspended other f found
    have moved := was.transfer (resume_group sound known found differ served)
    by_cases here : f.entry.tensor.job = e.entry.tensor.job
    · refine ⟨moved.allocated,moved.full,fun requested => ?_,fun granted => ?_,moved.gathering,
        moved.reducing⟩
      · have member := was.requested requested
        rw [here,lock] at member
        rw [here,setMutex_same]
        cases waiting with
        | nil => cases member
        | cons first rest =>
          rcases List.mem_cons.mp member with rfl | later
          · exact absurd List.mem_cons_self next
          · exact later
      · have mine := was.owner granted
        rw [here,lock] at mine
        cases mine
        exact absurd rfl differ
    · exact ⟨moved.allocated,moved.full,by rw [setMutex_other here]; exact was.requested,
        by rw [setMutex_other here]; exact was.owner,moved.gathering,moved.reducing⟩

theorem resume_waiting
    (member : other ∈
      (setMutex mutex e.entry.tensor.job (Mutex.held id waiting).release i).waiting) :
    ∃ f, handOver s.enqueues id waiting other = some f ∧ f.entry.tensor.job = i ∧
      f.stage = .requested := by
  by_cases here : i = e.entry.tensor.job
  · subst here
    rw [setMutex_same] at member
    cases waiting with
    | nil => cases member
    | cons first rest =>
      have distinct := sound.waitingDistinct e.entry.tensor.job
      rw [lock] at distinct
      obtain ⟨differ,g,before,ofJob,requested⟩ :=
        resume_waiter sound known stage lock (List.mem_cons_of_mem _ member)
      have later : other ∉ (first :: rest).take 1 := fun next =>
        (List.nodup_cons.mp distinct).1 (List.mem_singleton.mp next ▸ member)
      exact ⟨g,(handOver_other differ later).trans before,ofJob,requested⟩
  · rw [setMutex_other here] at member
    obtain ⟨g,before,ofJob,requested⟩ := sound.waiting i other member
    exact ⟨g,resume_elsewhere sound known stage lock before (ofJob.trans_ne here),ofJob,requested⟩

theorem resume_owned
    (found : (setMutex mutex e.entry.tensor.job (Mutex.held id waiting).release i).owner =
      some other) :
    ∃ f, handOver s.enqueues id waiting other = some f ∧ f.entry.tensor.job = i ∧
      f.stage ≠ .requested := by
  by_cases here : i = e.entry.tensor.job
  · subst here
    rw [setMutex_same] at found
    cases waiting with
    | nil => cases found
    | cons first rest =>
      cases found
      obtain ⟨_,g,_,ofJob,_,granted⟩ :=
        resume_granted sound known stage lock (show other ∈ _ from List.mem_cons_self)
      exact ⟨_,granted,ofJob,by simp⟩
  · rw [setMutex_other here] at found
    obtain ⟨g,before,ofJob,held⟩ := sound.owned i other found
    exact ⟨g,resume_elsewhere sound known stage lock before (ofJob.trans_ne here),ofJob,held⟩

theorem resume_fresh (later : s.coroutines ≤ other) :
    handOver s.enqueues id waiting other = none := by
  have absent := sound.fresh other later
  have differ : other ≠ id := by
    rintro rfl
    rw [known] at absent
    cases absent
  have next : other ∉ waiting.take 1 := fun next => by
    obtain ⟨_,f,found,_⟩ := resume_waiter sound known stage lock (List.mem_of_mem_take next)
    rw [absent] at found
    cases found
  rw [handOver_other differ next,absent]

omit known stage in
theorem resume_waitingDistinct (i : Nat) :
    (setMutex mutex e.entry.tensor.job (Mutex.held id waiting).release i).waiting.Nodup := by
  by_cases here : i = e.entry.tensor.job
  · subst here
    have distinct := sound.waitingDistinct e.entry.tensor.job
    rw [lock] at distinct
    rw [setMutex_same]
    cases waiting with
    | nil => exact List.nodup_nil
    | cons first rest => exact (List.nodup_cons.mp distinct).2
  · rw [setMutex_other here]
    exact sound.waitingDistinct i

end resume

/-- The queue of the layer is empty now, and so is its group. -/
theorem resume_queue (distinct : work.DistinctKeys cfg) (sound : Sound cfg work groups mutex s)
    {id : Nat} {e : Enqueue}
    (layer : e.entry.tensor.tensorId < (work.model e.entry.tensor.job).length)
    (inside : l < (work.model i).length) :
    (s.resume cfg id e).queue.get (cfg.getKey i l) =
      (setGroup groups e.entry.tensor.job e.entry.tensor.tensorId
        (groups e.entry.tensor.job e.entry.tensor.tensorId).close i l).entries i l := by
  have same := sound.queue i l inside
  by_cases here : i = e.entry.tensor.job ∧ l = e.entry.tensor.tensorId
  · obtain ⟨rfl,rfl⟩ := here
    simp [resume,TensorRef.key,Group.entries]
    rfl
  · have other : cfg.getKey i l ≠ cfg.getKey e.entry.tensor.job e.entry.tensor.tensorId :=
      fun equal => here (distinct i l _ _ inside layer equal)
    rw [setGroup_other here]
    simpa [resume,TensorRef.key,other] using same

theorem resume_collected (sound : Sound cfg work groups mutex s) {id : Nat}
    (phase : (groups j t).phase = .reducing 0 id []) (inside : l < (work.model i).length)
    (member : w ∈ work.widsAllocated i) (turn : Nat) :
    s.collectives.flatten.count ⟨⟨w,i,l⟩,turn⟩ =
      if turn < (setGroup groups j t (groups j t).close i l).turn ∨
        turn = (setGroup groups j t (groups j t).close i l).turn ∧
          (setGroup groups j t (groups j t).close i l).phase ≠ .gathering 0
      then 1 else 0 := by
  have count := sound.collected i l inside w member turn
  by_cases here : i = j ∧ l = t
  · obtain ⟨rfl,rfl⟩ := here
    have order : turn < (groups i l).turn + 1 ↔
        turn < (groups i l).turn ∨ turn = (groups i l).turn := by omega
    simpa [phase,order] using count
  · rw [setGroup_other here]
    exact count

theorem resume_erased (sound : Sound cfg work groups mutex s) {id : Nat}
    (layer : t < (work.model j).length) (phase : (groups j t).phase = .reducing 0 id [])
    (now : e ∈ s.queue.get (cfg.getKey j t)) : e ∈ s.clients.served := by
  have rep := sound.consistent.represents j t layer
  have inside : e ∈ (groups j t).entries j t := sound.queue j t layer ▸ now
  have last : Group.Last 0 (work.size j t) 0 := Or.inl rfl
  obtain ⟨w,arrived,rfl⟩ := List.mem_map.mp inside
  exact rep.mem_served (rep.wellFormed.inside arrived) (by simpa [Group.ended,phase] using last)

theorem resume_sound (distinct : work.DistinctKeys cfg) (sound : Sound cfg work groups mutex s)
    {id : Nat} {e : Enqueue} (known : s.enqueues id = some e) (stage : e.stage = .reducing)
    (done : s.clients.awaits id = false) :
    ∃ mutex', Sound cfg work
      (setGroup groups e.entry.tensor.job e.entry.tensor.tensorId
        (groups e.entry.tensor.job e.entry.tensor.tensorId).close) mutex'
      (s.resume cfg id e) := by
  have old := sound.suspended id e known
  have layer := old.allocated.2
  obtain ⟨outstanding,phase⟩ := old.reducing stage
  have empty := awaited_none sound layer phase done
  subst empty
  have owner := old.owner (by simp [stage])
  have last : Group.Last 0 (work.size e.entry.tensor.job e.entry.tensor.tensorId) 0 := Or.inl rfl
  cases lock : mutex e.entry.tensor.job with
  | free => rw [lock] at owner; cases owner
  | held holder waiting =>
    rw [lock] at owner
    cases owner
    have lookup := resume_enqueues cfg id e
      ((sound.locks e.entry.tensor.job).trans (congrArg Mutex.resource lock))
    exact ⟨setMutex mutex e.entry.tensor.job (Mutex.held id waiting).release,
      { consistent := sound.consistent.retire phase last
        queue := fun i l inside => resume_queue distinct sound layer inside
        locks := resume_locks cfg sound.locks lock
        suspended := fun other f found =>
          resume_suspended sound known stage lock (lookup ▸ found)
        single := fun one a two b first second => by
          rw [lookup] at first second
          obtain ⟨_,a',before,same⟩ := handOver_entry first
          obtain ⟨_,b',before',same'⟩ := handOver_entry second
          rw [← same,← same']
          exact sound.single one a' two b' before before'
        waiting := fun i other member => by
          rw [lookup]
          exact resume_waiting sound known stage lock member
        owned := fun i other found => by
          rw [lookup]
          exact resume_owned sound known stage lock found
        waitingDistinct := resume_waitingDistinct sound lock
        fresh := fun other later => by
          rw [lookup]
          exact resume_fresh sound known stage lock later
        whole := sound.whole
        collected := fun i l inside w member turn =>
          resume_collected sound phase inside member turn
        erased := fun entry member => (List.mem_append.mp member).elim (sound.erased entry)
          (resume_erased sound layer phase) }⟩

def Inv (cfg : Config) (work : Workload) (s : ReadyAndGo) : Prop :=
  ∃ groups mutex, Sound cfg work groups mutex s ∧ Attended work groups s

/-- No worker enqueues a tensor whose full group is still in the queue. -/
def Room (cfg : Config) (work : Workload) : Label → ReadyAndGo → Prop
  | .enqueue r,s => (s.queue.get (r.key cfg)).length < work.numWorkersAllocated r.job
  | _,_ => True

instance (cfg : Config) (work : Workload) (l : Label) (s : ReadyAndGo) :
    Decidable (Room cfg work l s) :=
  match l with
  | .enqueue r =>
    inferInstanceAs (Decidable ((s.queue.get (r.key cfg)).length < work.numWorkersAllocated r.job))
  | .start _ | .complete _ | .resume _ | .finish _ _ => isTrue trivial

theorem initial_inv (cfg : Config) (work : Workload) : Inv cfg work (initial work) :=
  ⟨_,_,initial_sound cfg work,fun _ _ _ some => absurd rfl some⟩

theorem enqueue_inv (distinct : work.DistinctKeys cfg) (inv : Inv cfg work s) {r : TensorRef}
    (may : s.clients.MayEnqueue work r)
    (room : (s.queue.get (r.key cfg)).length < work.numWorkersAllocated r.job) :
    Inv cfg work (s.enqueue cfg work r) := by
  obtain ⟨groups,mutex,sound,attended⟩ := inv
  have layer := may.1.2
  have queued : s.queue.get (r.key cfg) = _ := sound.queue r.job r.tensorId layer
  have before : (groups r.job r.tensorId).arrived.length < work.numWorkersAllocated r.job := by
    simpa [queued,Group.entries] using room
  obtain ⟨first,_,_⟩ := (sound.consistent.represents _ _ layer).of_room may before
  have pushed := push_sound distinct sound may before
  have others (j t : Nat) (other : ¬(j = r.job ∧ t = r.tensorId))
      (inside : t < (work.model j).length) (nonempty : (groups j t).arrived ≠ [])
      (full : (groups j t).arrived.length = work.numWorkersAllocated j) :
      ∃ id e, id ≠ s.coroutines ∧ s.enqueues id = some e ∧ e.entry.tensor.job = j ∧
        e.entry.tensor.tensorId = t := by
    obtain ⟨id,e,known,facts⟩ := attended j t inside nonempty full
    refine ⟨id,e,?_,known,facts⟩
    rintro rfl
    rw [sound.fresh s.coroutines (Nat.le_refl _)] at known
    cases known
  have length : ((s.push cfg r).queue.get (r.key cfg)).length =
      (groups r.job r.tensorId).arrived.length + 1 := by
    simp [push,queued,Group.entries]
  unfold enqueue
  dsimp only
  split
  case isTrue full =>
    have alone (id : Nat) (e : Enqueue) (known : s.enqueues id = some e) :
        ¬(e.entry.tensor.job = r.job ∧ e.entry.tensor.tensorId = r.tensorId) := by
      intro here
      have was := (sound.suspended id e known).full
      rw [here.1,here.2] at was
      omega
    refine ⟨_,_,request_sound pushed (s.clients.nextEntry r) may.1 ?_ ?_ alone,?_⟩
    · simpa [Clients.nextEntry] using first
    · simpa [Clients.nextEntry] using length.symm.trans full
    · have lookup := request_enqueues (s.push cfg r) (s.clients.nextEntry r) (pushed.locks _)
      intro j t inside nonempty whole
      by_cases here : j = r.job ∧ t = r.tensorId
      · obtain ⟨rfl,rfl⟩ := here
        exact ⟨(s.push cfg r).coroutines,_,by rw [lookup,if_pos rfl],rfl,rfl⟩
      · rw [setGroup_other here] at nonempty whole
        obtain ⟨id,e,differ,known,facts⟩ := others j t here inside nonempty whole
        exact ⟨id,e,(lookup id).trans (if_neg differ ▸ known),facts⟩
  case isFalse partly =>
    refine ⟨_,_,pushed,fun j t inside nonempty whole => ?_⟩
    by_cases here : j = r.job ∧ t = r.tensorId
    · obtain ⟨rfl,rfl⟩ := here
      rw [setGroup_same,Group.arrive_arrived,List.length_append,List.length_singleton] at whole
      exact absurd (length.trans whole) partly
    · rw [setGroup_other here] at nonempty whole
      obtain ⟨id,e,_,known,facts⟩ := others j t here inside nonempty whole
      exact ⟨id,e,known,facts⟩

theorem resume_keeps (cfg : Config) (e : Enqueue) {id other : Nat} {f : Enqueue}
    (known : s.enqueues other = some f) (differ : other ≠ id) :
    ∃ g, (s.resume cfg id e).enqueues other = some g ∧ g.entry = f.entry := by
  simp only [resume,setStage,Table.erase_other _ differ,known]
  split
  · exact ⟨_,rfl,rfl⟩
  · exact ⟨_,rfl,rfl⟩

theorem step_inv (distinct : work.DistinctKeys cfg) (l : Label) (s t : ReadyAndGo)
    (inv : Inv cfg work s) (room : Room cfg work l s) (taken : step cfg work l s = some t) :
    Inv cfg work t := by
  cases l with
  | enqueue r =>
    simp only [step] at taken
    split at taken
    · rename_i may; cases taken; exact enqueue_inv distinct inv may room
    · cases taken
  | start id =>
    obtain ⟨e,known,taken⟩ := Option.bind_eq_some_iff.mp taken
    split at taken
    · rename_i allowed
      cases taken
      obtain ⟨groups,mutex,sound,attended⟩ := inv
      refine ⟨_,_,start_sound sound known allowed.1,fun j t inside nonempty whole => ?_⟩
      have same : (setGroup groups e.entry.tensor.job e.entry.tensor.tensorId
          ((groups e.entry.tensor.job e.entry.tensor.tensorId).launch 0 id) j t).arrived =
          (groups j t).arrived := by
        by_cases here : j = e.entry.tensor.job ∧ t = e.entry.tensor.tensorId
        · obtain ⟨rfl,rfl⟩ := here; simp
        · rw [setGroup_other here]
      rw [same] at nonempty whole
      obtain ⟨other,f,found,facts⟩ := attended j t inside nonempty whole
      have lookup := start_enqueues cfg known other
      by_cases this : other = id
      · subst this
        rw [known] at found
        cases found
        exact ⟨other,{ e with stage := .reducing },by rw [lookup,if_pos rfl],facts⟩
      · exact ⟨other,f,lookup.trans (if_neg this ▸ found),facts⟩
    · cases taken
  | complete call =>
    obtain ⟨clients,completed,taken⟩ := Option.bind_eq_some_iff.mp taken
    obtain ⟨called,rfl⟩ := Clients.complete_some completed
    cases taken
    obtain ⟨groups,mutex,sound,attended⟩ := inv
    obtain ⟨groups',sound',same⟩ := complete_sound sound called
    refine ⟨groups',mutex,sound',fun j t inside nonempty whole => ?_⟩
    rw [same] at nonempty whole
    exact attended j t inside nonempty whole
  | resume id =>
    obtain ⟨e,known,taken⟩ := Option.bind_eq_some_iff.mp taken
    split at taken
    · rename_i allowed
      cases taken
      obtain ⟨groups,mutex,sound,attended⟩ := inv
      obtain ⟨mutex',sound'⟩ := resume_sound distinct sound known allowed.1 allowed.2.1
      refine ⟨_,mutex',sound',fun j t inside nonempty whole => ?_⟩
      by_cases here : j = e.entry.tensor.job ∧ t = e.entry.tensor.tensorId
      · obtain ⟨rfl,rfl⟩ := here
        simp at nonempty
      · rw [setGroup_other here] at nonempty whole
        obtain ⟨other,f,found,ofJob,ofLayer⟩ := attended j t inside nonempty whole
        have differ : other ≠ id := by
          rintro rfl
          rw [known] at found
          cases found
          exact here ⟨ofJob.symm,ofLayer.symm⟩
        obtain ⟨g,kept,same⟩ := resume_keeps cfg e found differ
        exact ⟨other,g,kept,by rw [same]; exact ofJob,by rw [same]; exact ofLayer⟩
    · cases taken
  | finish w j =>
    simp only [step] at taken
    split at taken
    · cases taken
      obtain ⟨groups,mutex,sound,attended⟩ := inv
      exact ⟨groups,mutex,finish_sound sound w j,attended⟩
    · cases taken

/-- At most one collective per job is in progress; each was started on one entry of every
worker of its job; only allreduced entries are erased; each enqueue takes part in one collective
or waits for it in the queue; and a full group never waits for nothing. -/
structure Lossless (cfg : Config) (work : Workload) (s : ReadyAndGo) : Prop where
  exclusive : ∀ id e other f, s.enqueues id = some e → s.enqueues other = some f →
    e.stage = .reducing → f.stage = .reducing → e.entry.tensor.job = f.entry.tensor.job →
    id = other
  whole : ∀ entries ∈ s.collectives, ∃ j t turn, t < (work.model j).length ∧
    entries.Perm ((work.widsAllocated j).map fun w => ⟨⟨w,j,t⟩,turn⟩)
  erased : ∀ e ∈ s.erased, e ∈ s.clients.served
  once : ∀ r, work.Allocates r → ∀ turn < s.clients.enqueued r,
    s.collectives.flatten.count ⟨r,turn⟩ = 1 ∨
      s.collectives.flatten.count ⟨r,turn⟩ = 0 ∧ ⟨r,turn⟩ ∈ s.queue.get (r.key cfg)
  live : (∀ id e, s.enqueues id = some e → e.stage = .requested) → ∀ r, work.Allocates r →
    (s.queue.get (r.key cfg)).length < work.numWorkersAllocated r.job

theorem Inv.lossless (inv : Inv cfg work s) : Lossless cfg work s := by
  obtain ⟨groups,mutex,sound,attended⟩ := inv
  refine ⟨?_,sound.whole,sound.erased,?_,?_⟩
  · intro id e other f known also stage stage' sameJob
    have mine := (sound.suspended id e known).owner (by simp [stage])
    have yours := (sound.suspended other f also).owner (by simp [stage'])
    rw [sameJob,yours] at mine
    exact (Option.some.inj mine).symm
  · rintro ⟨w,j,t⟩ ⟨worker,layer⟩ turn before
    have rep := sound.consistent.represents j t layer
    have count := sound.collected j t layer w worker turn
    rw [rep.enqueued w worker] at before
    by_cases collected : turn < (groups j t).turn ∨
        turn = (groups j t).turn ∧ (groups j t).phase ≠ .gathering 0
    · rw [if_pos collected] at count
      exact Or.inl count
    · rw [if_neg collected] at count
      refine Or.inr ⟨count,?_⟩
      have arrived : w ∈ (groups j t).arrived := by
        by_contra absent
        rw [if_neg absent] at before
        exact collected (Or.inl before)
      rw [if_pos arrived] at before
      have now : turn = (groups j t).turn := by
        by_contra other
        exact collected (Or.inl (by omega))
      have queued : s.queue.get (TensorRef.key cfg ⟨w,j,t⟩) = _ := sound.queue j t layer
      rw [queued]
      exact Group.mem_entries.mpr ⟨rfl,rfl,now,arrived⟩
  · rintro idle ⟨w,j,t⟩ ⟨worker,layer⟩
    have wellFormed := (sound.consistent.represents j t layer).wellFormed
    have queued : s.queue.get (TensorRef.key cfg ⟨w,j,t⟩) = _ := sound.queue j t layer
    have length : (s.queue.get (TensorRef.key cfg ⟨w,j,t⟩)).length =
        (groups j t).arrived.length := by rw [queued,Group.entries,List.length_map]
    have most : (groups j t).arrived.length ≤ work.numWorkersAllocated j :=
      (wellFormed.distinct.subperm wellFormed.inside).length_le
    have some : 0 < work.numWorkersAllocated j := List.length_pos_of_mem worker
    rw [length]
    rcases Nat.lt_or_eq_of_le most with room | full
    · exact room
    · obtain ⟨id,e,known,ofJob,_⟩ := attended j t layer (by
        intro nobody
        rw [nobody] at full
        simp only [List.length_nil] at full
        omega) full
      have waits := (sound.suspended id e known).requested (idle id e known)
      rw [ofJob] at waits
      cases lock : mutex j with
      | free => rw [lock] at waits; cases waits
      | held owner waiting =>
        obtain ⟨f,holds,_,stage⟩ := sound.owned j owner (by rw [lock]; rfl)
        exact absurd (idle owner f holds) stage

/-- In every run in which no worker enqueues a tensor whose full group is still queued. -/
theorem collectives_lossless (cfg : Config) (work : Workload) (distinct : work.DistinctKeys cfg)
    (s : ReadyAndGo) (run : Runs.Run (step cfg work) (Room cfg work) (initial work) s) :
    Lossless cfg work s :=
  (run.invariant (step_inv distinct) (initial_inv cfg work)).lossless

def firstPass : List Label :=
  [.enqueue ⟨0,0,0⟩,.enqueue ⟨1,0,0⟩,.start 0,.complete ⟨0,⟨⟨0,0,0⟩,0⟩⟩]

theorem collectives_lossless_twice :
    ∃ s, Runs.Run (step oneLayerConfig oneLayer) (Room oneLayerConfig oneLayer)
        (initial oneLayer) s ∧
      s.collectives.length = 2 ∧ Lossless oneLayerConfig oneLayer s := by
  have ends : (Runs.exec (step oneLayerConfig oneLayer) (Room oneLayerConfig oneLayer)
      (firstPass ++ [.complete ⟨0,⟨⟨1,0,0⟩,0⟩⟩,.resume 0,.enqueue ⟨1,0,0⟩,.enqueue ⟨0,0,0⟩,
        .start 1]) (initial oneLayer)).map (fun s => s.collectives.length) = some 2 := by decide
  obtain ⟨s,run,collectives⟩ := Runs.exists_run_of_exec ends
  exact ⟨s,run,collectives,collectives_lossless _ _ oneLayer_distinctKeys s run⟩

/-- The faster worker enqueues the next iteration while the slower one still reduces, and
`queue.erase` removes its entry. -/
theorem early_enqueue_is_erased :
    ∃ s, Runs.Run (step oneLayerConfig oneLayer) Runs.anyStep (initial oneLayer) s ∧
      ¬Lossless oneLayerConfig oneLayer s := by
  have ends : (Runs.exec (step oneLayerConfig oneLayer) Runs.anyStep
      (firstPass ++ [.enqueue ⟨0,0,0⟩,.complete ⟨0,⟨⟨1,0,0⟩,0⟩⟩,.resume 0]) (initial oneLayer)).map
      (fun s => (s.erased,s.clients.served)) =
      some ([⟨⟨0,0,0⟩,0⟩,⟨⟨1,0,0⟩,0⟩,⟨⟨0,0,0⟩,1⟩],[⟨⟨0,0,0⟩,0⟩,⟨⟨1,0,0⟩,0⟩]) := by decide
  obtain ⟨s,run,view⟩ := Runs.exists_run_of_exec ends
  refine ⟨s,run,fun lossless => ?_⟩
  obtain ⟨erased,served⟩ := Prod.mk.inj view
  have lost := lossless.erased ⟨⟨0,0,0⟩,1⟩ (by simp [erased])
  simp [served] at lost

end ReadyAndGo
end CloudSim
