import CloudSim.FirstInFirstOutOneByOne
import CloudSim.ReadyAndGoLossless
import CloudSim.Pipeline

/-! `FirstInFirstOutOneByOne` runs one collective at a time, in the order in which the groups were
completed, and reduces every enqueue once. -/
namespace CloudSim

namespace FirstInFirstOutOneByOne

def mutexOf : List (Nat × Enqueue) → Mutex Nat
  | [] => .free
  | (id,_) :: rest => .held id (rest.map Prod.fst)

def IsPending (p : Nat × Enqueue) : Bool := decide (p.2.stage ≠ .reducing)

structure Pending (work : Workload) (groups : Nat → Nat → Group) (entry : Entry) : Prop where
  allocated : work.Allocates entry.tensor
  phase : (groups entry.tensor.job entry.tensor.tensorId).phase = .gathering 0
  full : (groups entry.tensor.job entry.tensor.tensorId).arrived.length =
    work.numWorkersAllocated entry.tensor.job
  turn : entry.turn = (groups entry.tensor.job entry.tensor.tensorId).turn

/-- A collective on one entry of every worker of a job, all from one iteration. -/
def Whole (work : Workload) (collective : Collective) : Prop :=
  ∃ j t turn, t < (work.model j).length ∧
    collective.entries.Perm ((work.widsAllocated j).map fun w => (⟨⟨w,j,t⟩,turn⟩,turn)) ∧
    ∃ w ∈ work.widsAllocated j, collective.opener = ⟨⟨w,j,t⟩,turn⟩

/-- The suspended calls are in `line`, in the order of their requests; all but the first wait. -/
structure Sound (cfg : Config) (work : Workload) (groups : Nat → Nat → Group)
    (early : Nat → Nat → List Nat) (line : List (Nat × Enqueue)) (s : FirstInFirstOutOneByOne) :
    Prop where
  pipelined : Pipelined work 0 groups early s.clients
  retired : Retired work s.clients
  queue : ∀ j t, t < (work.model j).length → s.queue.get (cfg.getKey j t) =
    if (groups j t).phase = .gathering 0 then (groups j t).entries j t
    else ((groups j t).advance (early j t)).entries j t
  lock : s.lock = (mutexOf line).resource
  enqueues : ∀ id e, s.enqueues id = some e ↔ (id,e) ∈ line
  ids : (line.map Prod.fst).Nodup
  fresh : ∀ id, s.coroutines ≤ id → s.enqueues id = none
  head : ∀ p ∈ line.head?, p.2.stage ≠ .requested
  tail : ∀ p ∈ line.tail, p.2.stage = .requested
  pending : ∀ p ∈ line, IsPending p = true → Pending work groups p.2.entry
  single : ∀ p ∈ line, ∀ q ∈ line, IsPending p = true → IsPending q = true →
    p.2.entry.tensor.job = q.2.entry.tensor.job →
    p.2.entry.tensor.tensorId = q.2.entry.tensor.tensorId → p = q
  reducing : ∀ j t, t < (work.model j).length → (groups j t).phase ≠ .gathering 0 →
    ∃ p ∈ line.head?, IsPending p = false ∧ p.2.entry.tensor.job = j ∧
      p.2.entry.tensor.tensorId = t ∧ ∃ outstanding,
        (groups j t).phase = .reducing 0 p.1 outstanding ∧ outstanding ≠ []
  order : s.completed = s.collectives.map Collective.opener ++
    (line.filter IsPending).map fun p => p.2.entry
  whole : ∀ collective ∈ s.collectives, Whole work collective
  collected : ∀ j t, t < (work.model j).length → ∀ w ∈ work.widsAllocated j, ∀ turn,
    (s.collectives.flatMap fun collective => collective.entries.map Prod.fst).count
      ⟨⟨w,j,t⟩,turn⟩ =
      if turn < (groups j t).turn ∨ turn = (groups j t).turn ∧ (groups j t).phase ≠ .gathering 0
      then 1 else 0

def Attended (work : Workload) (groups : Nat → Nat → Group) (line : List (Nat × Enqueue)) : Prop :=
  ∀ j t, t < (work.model j).length → (groups j t).phase = .gathering 0 →
    (groups j t).arrived ≠ [] → (groups j t).arrived.length = work.numWorkersAllocated j →
    ∃ p ∈ line, IsPending p = true ∧ p.2.entry.tensor.job = j ∧ p.2.entry.tensor.tensorId = t

variable {cfg : Config} {work : Workload} {groups : Nat → Nat → Group}
  {early : Nat → Nat → List Nat} {line : List (Nat × Enqueue)} {s : FirstInFirstOutOneByOne}

theorem initial_sound (cfg : Config) (work : Workload) :
    Sound cfg work (fun _ _ => {}) (fun _ _ => []) [] (initial work) where
  pipelined := Pipelined.initial work 0
  retired _ _ done := by cases done
  queue _ _ _ := rfl
  lock := rfl
  enqueues _ _ := ⟨(by intro known; cases known),fun member => by cases member⟩
  ids := List.nodup_nil
  fresh _ _ := rfl
  head _ member := by cases member
  tail _ member := by cases member
  pending _ member := by cases member
  single _ member := by cases member
  reducing _ _ _ later := absurd rfl later
  order := rfl
  whole _ member := by cases member
  collected _ _ _ _ _ turn := by simp [initial]

theorem Pending.transfer (pending : Pending work groups entry) {groups' : Nat → Nat → Group}
    (same : groups' entry.tensor.job entry.tensor.tensorId =
      groups entry.tensor.job entry.tensor.tensorId) : Pending work groups' entry :=
  ⟨pending.allocated,same ▸ pending.phase,same ▸ pending.full,same ▸ pending.turn⟩

theorem push_sound (distinct : work.DistinctKeys cfg) (sound : Sound cfg work groups early line s)
    {r : TensorRef} (may : s.clients.MayEnqueue work r)
    (room : (groups r.job r.tensorId).arrived.length < work.numWorkersAllocated r.job) :
    Sound cfg work
      (setGroup groups r.job r.tensorId ((groups r.job r.tensorId).arrive r.machine)) early line
      (s.push cfg r) := by
  have layer := may.1.2
  have phase := sound.pipelined.gathering_of_room layer room
  obtain ⟨pipelined,absent,turn⟩ := sound.pipelined.enqueue may room
  refine { sound with
    pipelined := pipelined
    retired := sound.retired.enqueue may
    queue := fun j t inside => ?_
    pending := fun p member waits => ?_
    reducing := fun j t inside later => ?_
    collected := fun j t inside w member k => ?_ }
  · have old := sound.queue j t inside
    by_cases same : j = r.job ∧ t = r.tensorId
    · obtain ⟨rfl,rfl⟩ := same
      rw [if_pos phase] at old
      simp [push,TensorRef.key,old,phase,Group.entries,Clients.nextEntry,turn]
    · have other : cfg.getKey j t ≠ r.key cfg := fun equal =>
        same (distinct j t r.job r.tensorId inside layer equal)
      rw [setGroup_other same]
      simpa [push,other] using old
  · have old := sound.pending p member waits
    refine old.transfer (setGroup_other fun same => ?_)
    have full := old.full
    rw [same.1,same.2] at full
    omega
  · by_cases same : j = r.job ∧ t = r.tensorId
    · obtain ⟨rfl,rfl⟩ := same
      rw [setGroup_same] at later
      exact absurd phase later
    · rw [setGroup_other same] at later ⊢
      exact sound.reducing j t inside later
  · have old := sound.collected j t inside w member k
    by_cases same : j = r.job ∧ t = r.tensorId
    · obtain ⟨rfl,rfl⟩ := same
      simpa [push] using old
    · simpa [push,setGroup_other same] using old

/-- An arrival for the next turn of a layer whose collective is in progress. -/
theorem push_early_sound (distinct : work.DistinctKeys cfg)
    (sound : Sound cfg work groups early line s) {r : TensorRef}
    (may : s.clients.MayEnqueue work r)
    (full : (groups r.job r.tensorId).arrived.length = work.numWorkersAllocated r.job) :
    Sound cfg work groups
      (setNext early r.job r.tensorId (early r.job r.tensorId ++ [r.machine])) line
      (s.push cfg r) ∧
    ((s.push cfg r).queue.get (r.key cfg)).length < work.numWorkersAllocated r.job := by
  have layer := may.1.2
  obtain ⟨pipelined,ended,absent,turn⟩ := sound.pipelined.enqueue_early may full
  have later : (groups r.job r.tensorId).phase ≠ .gathering 0 := fun phase => by
    simp [Group.ended,phase] at ended
  have queued := sound.queue r.job r.tensorId layer
  rw [if_neg later] at queued
  change s.queue.get (r.key cfg) = _ at queued
  have length : ((s.push cfg r).queue.get (r.key cfg)).length =
      (early r.job r.tensorId).length + 1 := by
    simp [push,queued,Group.entries,Group.advance]
  constructor
  · refine { sound with
      pipelined := pipelined
      retired := sound.retired.enqueue may
      queue := fun j t inside => ?_ }
    have old := sound.queue j t inside
    by_cases same : j = r.job ∧ t = r.tensorId
    · obtain ⟨rfl,rfl⟩ := same
      rw [if_neg later,setNext_same]
      change (s.push cfg r).queue.get (r.key cfg) = _
      simp [push,queued,Group.entries,Group.advance,Clients.nextEntry,turn]
    · have other : cfg.getKey j t ≠ r.key cfg := fun equal =>
        same (distinct j t r.job r.tensorId inside layer equal)
      rw [setNext_other same]
      simpa [push,other] using old
  · obtain ⟨p,_,_,_,_,outstanding,phase,some⟩ := sound.reducing _ _ layer later
    obtain ⟨v,working⟩ := List.exists_mem_of_ne_nil _ some
    have wellFormed := (sound.pipelined.consistent.represents _ _ layer).wellFormed
    obtain ⟨_,_,within⟩ := wellFormed.reducing _ _ _ phase
    have few := pipelined.early_lt layer (wellFormed.inside (within working))
      (by simp [Group.ended,phase,working])
    rw [setNext_same,List.length_append,List.length_singleton] at few
    rw [length]
    exact few

theorem request_enqueues (s : FirstInFirstOutOneByOne) (entry : Entry) {m : Mutex Nat}
    (lock : s.lock = m.resource) (id : Nat) :
    (s.request entry).enqueues id =
      if id = s.coroutines then some ⟨entry,ReadyAndGo.requestStage m⟩ else s.enqueues id := by
  simp only [request,lock,m.resource_request]
  cases m with
  | free =>
    by_cases new : id = s.coroutines <;>
      simp [ReadyAndGo.setStage,new,Mutex.granted,ReadyAndGo.requestStage]
  | held =>
    by_cases new : id = s.coroutines <;>
      simp [ReadyAndGo.setStage,new,Mutex.granted,ReadyAndGo.requestStage]

def queueUp (line : List (Nat × Enqueue)) (id : Nat) (entry : Entry) : List (Nat × Enqueue) :=
  line ++ [(id,⟨entry,ReadyAndGo.requestStage (mutexOf line)⟩)]

theorem isPending_requested (id : Nat) (entry : Entry) (m : Mutex Nat) :
    IsPending (id,⟨entry,ReadyAndGo.requestStage m⟩) = true := by
  cases m <;> rfl

theorem mutexOf_queueUp (line : List (Nat × Enqueue)) (id : Nat) (entry : Entry) :
    mutexOf (queueUp line id entry) = (mutexOf line).request id := by
  cases line with
  | nil => rfl
  | cons p rest => simp [queueUp,mutexOf,Mutex.request]

theorem request_sound (sound : Sound cfg work groups early line s) (entry : Entry)
    (pending : Pending work groups entry)
    (alone : ∀ p ∈ line, IsPending p = true → ¬(p.2.entry.tensor.job = entry.tensor.job ∧
      p.2.entry.tensor.tensorId = entry.tensor.tensorId)) :
    Sound cfg work groups early (queueUp line s.coroutines entry) (s.request entry) := by
  have lookup := request_enqueues s entry sound.lock
  have fresh := sound.fresh s.coroutines (Nat.le_refl _)
  have unused (e : Enqueue) : (s.coroutines,e) ∉ line := fun member => by
    rw [(sound.enqueues _ _).mpr member] at fresh
    cases fresh
  constructor
  case pipelined => exact sound.pipelined
  case retired => exact sound.retired
  case queue => exact sound.queue
  case whole => exact sound.whole
  case collected => exact sound.collected
  case lock =>
    rw [mutexOf_queueUp]
    simp only [request,sound.lock,Mutex.resource_request]
  case enqueues =>
    intro id e
    rw [lookup,queueUp,List.mem_append,List.mem_singleton]
    by_cases new : id = s.coroutines
    · subst new
      simp [unused e,eq_comm]
    · simp [new,sound.enqueues]
  case ids =>
    rw [queueUp,List.map_append]
    apply List.nodup_append.mpr
    refine ⟨sound.ids,List.nodup_singleton _,?_⟩
    intro id member other same
    rw [List.mem_singleton.mp same]
    rintro rfl
    obtain ⟨⟨_,e⟩,known,rfl⟩ := List.mem_map.mp member
    exact unused e known
  case fresh =>
    intro id beyond
    have beyond : s.coroutines + 1 ≤ id := beyond
    rw [lookup,if_neg (by omega)]
    exact sound.fresh id (by omega)
  case head =>
    cases line with
    | nil =>
      rintro p ⟨⟩
      exact Stage.noConfusion
    | cons first rest => exact sound.head
  case tail =>
    cases line with
    | nil => exact fun p member => by cases member
    | cons first rest =>
      intro p member
      rcases List.mem_append.mp member with old | new
      · exact sound.tail p old
      · rw [List.mem_singleton.mp new]
        rfl
  case pending =>
    intro p member waits
    rcases List.mem_append.mp member with old | new
    · exact sound.pending p old waits
    · rw [List.mem_singleton.mp new]
      exact pending
  case single =>
    intro p member q also waits waits' sameJob sameLayer
    rcases List.mem_append.mp member with old | new
    · rcases List.mem_append.mp also with old' | new'
      · exact sound.single p old q old' waits waits' sameJob sameLayer
      · rw [List.mem_singleton.mp new'] at sameJob sameLayer
        exact absurd ⟨sameJob,sameLayer⟩ (alone p old waits)
    · rcases List.mem_append.mp also with old' | new'
      · rw [List.mem_singleton.mp new] at sameJob sameLayer
        exact absurd ⟨sameJob.symm,sameLayer.symm⟩ (alone q old' waits')
      · rw [List.mem_singleton.mp new,List.mem_singleton.mp new']
  case reducing =>
    intro j t inside later
    obtain ⟨p,first,facts⟩ := sound.reducing j t inside later
    cases line with
    | nil => cases first
    | cons head rest => exact ⟨p,first,facts⟩
  case order =>
    rw [queueUp,List.filter_append,List.filter_cons_of_pos (isPending_requested ..)]
    simp [request,sound.order]

theorem Sound.first (sound : Sound cfg work groups early line s) {id : Nat} {e : Enqueue}
    (known : s.enqueues id = some e) (stage : e.stage ≠ .requested) :
    ∃ rest, line = (id,e) :: rest := by
  have member := (sound.enqueues id e).mp known
  cases line with
  | nil => cases member
  | cons p rest =>
    rcases List.mem_cons.mp member with rfl | later
    · exact ⟨rest,rfl⟩
    · exact absurd (sound.tail _ later) stage

theorem start_enqueues (cfg : Config) {id : Nat} {e : Enqueue} (known : s.enqueues id = some e)
    (other : Nat) : (s.start cfg id e).enqueues other =
      if other = id then some { e with stage := .reducing } else s.enqueues other := by
  by_cases same : other = id
  · subst same; simp [start,ReadyAndGo.setStage,known]
  · simp [start,ReadyAndGo.setStage,same]

theorem start_sound (distinct : work.DistinctKeys cfg) {rest : List (Nat × Enqueue)} {id : Nat}
    {e : Enqueue} (sound : Sound cfg work groups early ((id,e) :: rest) s)
    (granted : e.stage = .granted) :
    Sound cfg work
      (setGroup groups e.entry.tensor.job e.entry.tensor.tensorId
        ((groups e.entry.tensor.job e.entry.tensor.tensorId).launch 0 id)) early
      ((id,{ e with stage := .reducing }) :: rest) (s.start cfg id e) := by
  have known := (sound.enqueues id e).mpr List.mem_cons_self
  have waits : IsPending (id,e) = true := by simp [IsPending,granted]
  obtain ⟨⟨⟨v,j,t⟩,k⟩,stage⟩ := e
  cases granted
  obtain ⟨⟨worker,layer⟩,phase,full,turn⟩ := sound.pending _ List.mem_cons_self waits
  dsimp only at worker layer phase full turn ⊢
  have pipe := sound.pipelined
  have rep := pipe.consistent.represents j t layer
  have queued : s.queue.get (cfg.getKey j t) = (groups j t).entries j t := by
    rw [sound.queue j t layer,if_pos phase]
  have some : (groups j t).arrived ≠ [] := by
    intro none
    rw [none] at full
    exact absurd full.symm (List.length_pos_of_mem worker).ne'
  have lookup := start_enqueues cfg known
  have absent : id ∉ rest.map Prod.fst := (List.nodup_cons.mp sound.ids).1
  have later (p : Nat × Enqueue) (member : p ∈ rest) : p ≠ (id,⟨⟨⟨v,j,t⟩,k⟩,.granted⟩) := by
    rintro rfl
    exact absent (List.mem_map.mpr ⟨_,member,rfl⟩)
  have started : (s.start cfg id ⟨⟨⟨v,j,t⟩,k⟩,.granted⟩).collectives = s.collectives ++
      [⟨⟨⟨v,j,t⟩,k⟩,((groups j t).entries j t).map fun entry =>
        (entry,(s.clients.tensor entry.tensor).iter)⟩] := by
    simp only [start,TensorRef.key,queued]
  constructor
  case pipelined =>
    have launched := pipe.launch layer phase full id
    rwa [← queued] at launched
  case retired => exact sound.retired
  case queue =>
    intro i l inside
    have old := sound.queue i l inside
    by_cases here : i = j ∧ l = t
    · obtain ⟨rfl,rfl⟩ := here
      rw [setGroup_same,if_neg (by simp),pipe.early_nil layer phase]
      exact Table.get_erase_same _ _
    · have other : cfg.getKey i l ≠ cfg.getKey j t := fun equal =>
        here (distinct i l j t inside layer equal)
      rw [setGroup_other here,← old]
      exact Table.get_erase_other _ other
  case lock => exact sound.lock
  case enqueues =>
    intro other f
    rw [lookup]
    by_cases same : other = id
    · subst same
      have gone : (other,f) ∉ rest := fun member => absent (List.mem_map.mpr ⟨_,member,rfl⟩)
      simp [gone,eq_comm]
    · simp [same,sound.enqueues]
  case ids => exact sound.ids
  case fresh =>
    intro other beyond
    rw [lookup,if_neg]
    · exact sound.fresh other beyond
    · rintro rfl
      rw [sound.fresh other beyond] at known
      cases known
  case head => rintro p ⟨⟩; exact Stage.noConfusion
  case tail => exact sound.tail
  case pending =>
    intro p member waits'
    rcases List.mem_cons.mp member with rfl | old
    · simp [IsPending] at waits'
    · refine (sound.pending p (List.mem_cons_of_mem _ old) waits').transfer (setGroup_other ?_)
      rintro ⟨sameJob,sameLayer⟩
      exact later p old (sound.single p (List.mem_cons_of_mem _ old) _ List.mem_cons_self waits'
        waits sameJob sameLayer)
  case single =>
    intro p member q also waits' waits'' sameJob sameLayer
    rcases List.mem_cons.mp member with rfl | old
    · simp [IsPending] at waits'
    · rcases List.mem_cons.mp also with rfl | old'
      · simp [IsPending] at waits''
      · exact sound.single p (List.mem_cons_of_mem _ old) q (List.mem_cons_of_mem _ old') waits'
          waits'' sameJob sameLayer
  case reducing =>
    intro i l inside phase'
    by_cases here : i = j ∧ l = t
    · obtain ⟨rfl,rfl⟩ := here
      exact ⟨_,rfl,by simp [IsPending],rfl,rfl,(groups i l).arrived,by simp,some⟩
    · rw [setGroup_other here] at phase'
      obtain ⟨p,⟨⟩,runs,_⟩ := sound.reducing i l inside phase'
      exact absurd (waits.symm.trans runs) (by decide)
  case order =>
    have order := sound.order
    rw [List.filter_cons_of_pos waits] at order
    rw [started,List.filter_cons_of_neg (by simp [IsPending])]
    simpa [start] using order
  case whole =>
    intro collective member
    rw [started] at member
    rcases List.mem_append.mp member with old | new
    · exact sound.whole collective old
    · rw [List.mem_singleton.mp new]
      refine ⟨j,t,(groups j t).turn,layer,?_,v,worker,by rw [← turn]⟩
      have arrived := Group.full_of_length 0 _ rep.wellFormed full
      refine List.Perm.trans ?_ (arrived.map _)
      rw [Group.entries,List.map_map]
      apply List.Perm.of_eq
      apply List.map_congr_left
      intro w member
      simp [pipe.iter_of_gathering layer phase (rep.wellFormed.inside member)]
  case collected =>
    intro i l inside w member turn'
    have count := sound.collected i l inside w member turn'
    rw [started,List.flatMap_append,List.count_append,count]
    have group : ([⟨⟨⟨v,j,t⟩,k⟩,((groups j t).entries j t).map fun entry =>
        (entry,(s.clients.tensor entry.tensor).iter)⟩] : List Collective).flatMap
        (fun collective => collective.entries.map Prod.fst) = (groups j t).entries j t := by
      simp [Function.comp_def]
    rw [group]
    exact rep.started_launch phase full member turn' id l

/-- A call that ends leaves the queue and the started turns of its layer as they are. -/
theorem relayer (sound : Sound cfg work groups early line s) {j t : Nat} {g : Group}
    {ws : List Nat} {d : Clients}
    (pipelined : Pipelined work 0 (setGroup groups j t g) (setNext early j t ws) d)
    (retired : Retired work d) (later : (groups j t).phase ≠ .gathering 0)
    (content : (if g.phase = .gathering 0 then g.entries j t else (g.advance ws).entries j t) =
      ((groups j t).advance (early j t)).entries j t)
    (started : ∀ turn, turn < g.turn ∨ turn = g.turn ∧ g.phase ≠ .gathering 0 ↔
      turn < (groups j t).turn ∨ turn = (groups j t).turn)
    (reduces : ∀ waiter outstanding, (groups j t).phase = .reducing 0 waiter outstanding →
      g.phase ≠ .gathering 0 → ∃ outstanding, g.phase = .reducing 0 waiter outstanding ∧
        outstanding ≠ []) :
    Sound cfg work (setGroup groups j t g) (setNext early j t ws) line { s with clients := d } := by
  refine { sound with
    pipelined := pipelined
    retired := retired
    queue := fun i l inside => ?_
    pending := fun p known waits => (sound.pending p known waits).transfer (setGroup_other ?_)
    reducing := fun i l inside phase => ?_
    collected := fun i l inside v known turn => ?_ }
  · have old := sound.queue i l inside
    by_cases here : i = j ∧ l = t
    · obtain ⟨rfl,rfl⟩ := here
      rw [if_neg later] at old
      rw [setGroup_same,setNext_same,content]
      exact old
    · rw [setGroup_other here,setNext_other here]
      exact old
  · rintro ⟨rfl,rfl⟩
    exact later (sound.pending p known waits).phase
  · by_cases here : i = j ∧ l = t
    · obtain ⟨rfl,rfl⟩ := here
      obtain ⟨p,first,runs,sameJob,sameLayer,_,reducing,_⟩ := sound.reducing i l inside later
      rw [setGroup_same] at phase ⊢
      exact ⟨p,first,runs,sameJob,sameLayer,reduces _ _ reducing phase⟩
    · rw [setGroup_other here] at phase ⊢
      exact sound.reducing i l inside phase
  · have count := sound.collected i l inside v known turn
    by_cases here : i = j ∧ l = t
    · obtain ⟨rfl,rfl⟩ := here
      have order := started turn
      simp only [later,ne_eq,not_false_iff,and_true] at count
      simp only [setGroup_same,order]
      exact count
    · rw [setGroup_other here]
      exact count

/-- A call ends. After the last one the early arrivals are the next group, which is not full. -/
theorem complete_sound (sound : Sound cfg work groups early line s)
    (called : call ∈ s.clients.calls) (attended : Attended work groups line) :
    ∃ groups' early', Sound cfg work groups' early' line
      { s with clients := s.clients.answer 0 call } ∧ Attended work groups' line := by
  have retired := sound.retired.answer sound.pipelined called
  obtain ⟨j,t,w,chunks,waiter,outstanding,layer,phase,member,rfl,pipe⟩ :=
    sound.pipelined.complete called
  have rep := sound.pipelined.consistent.represents j t layer
  obtain ⟨_,_,within⟩ := rep.wellFormed.reducing _ _ _ phase
  have worker := rep.wellFormed.inside (within member)
  have later : (groups j t).phase ≠ .gathering 0 := by rw [phase]; exact Phase.noConfusion
  have few := sound.pipelined.early_lt layer worker (by simp [Group.ended,phase,member])
  have last : Group.Last 0 (work.size j t) chunks := Or.inl rfl
  obtain ⟨_,_,_,_,_,others,reduces,_⟩ := sound.reducing j t layer later
  rw [phase] at reduces
  cases reduces
  simp only [Group.complete,last,and_true,Group.answered] at pipe
  split at pipe
  · refine ⟨_,_,relayer sound pipe retired later rfl (fun turn => ?_) ?_,
      fun i l inside phase' some full => ?_⟩
    · simp only [Group.advance,ne_eq,not_true,and_false,or_false]
      omega
    · exact fun _ _ _ again => absurd rfl again
    · by_cases here : i = j ∧ l = t
      · obtain ⟨rfl,rfl⟩ := here
        rw [setGroup_same] at full
        exact absurd full few.ne
      · rw [setGroup_other here] at phase' some full
        exact attended i l inside phase' some full
  · rename_i some
    refine ⟨_,_,relayer sound pipe retired later rfl (fun turn => ?_) ?_,
      fun i l inside phase' some full => ?_⟩
    · simp
    · intro _ _ was _
      rw [phase] at was
      cases was
      exact ⟨_,rfl,some⟩
    · by_cases here : i = j ∧ l = t
      · obtain ⟨rfl,rfl⟩ := here
        rw [setGroup_same] at phase'
        cases phase'
      · rw [setGroup_other here] at phase' some full
        exact attended i l inside phase' some full

def grant : List (Nat × Enqueue) → List (Nat × Enqueue)
  | [] => []
  | (id,e) :: rest => (id,{ e with stage := .granted }) :: rest

theorem grant_ids (line : List (Nat × Enqueue)) : (grant line).map Prod.fst = line.map Prod.fst := by
  cases line <;> rfl

theorem mem_grant (waiting : ∀ p ∈ line, p.2.stage = .requested) (member : p ∈ grant line) :
    ∃ q ∈ line, q.1 = p.1 ∧ q.2.entry = p.2.entry ∧ IsPending p = true ∧ IsPending q = true := by
  have pending (q : Nat × Enqueue) (known : q ∈ line) : IsPending q = true := by
    simp [IsPending,waiting q known]
  cases line with
  | nil => cases member
  | cons first rest =>
    rcases List.mem_cons.mp member with rfl | later
    · exact ⟨first,List.mem_cons_self,rfl,rfl,by simp [IsPending],pending _ List.mem_cons_self⟩
    · exact ⟨p,List.mem_cons_of_mem _ later,rfl,rfl,pending _ (List.mem_cons_of_mem _ later),
        pending _ (List.mem_cons_of_mem _ later)⟩

theorem grant_mem (waiting : ∀ p ∈ line, p.2.stage = .requested) (member : p ∈ line) :
    ∃ q ∈ grant line, q.2.entry = p.2.entry ∧ IsPending q = true := by
  cases line with
  | nil => cases member
  | cons first rest =>
    rcases List.mem_cons.mp member with rfl | later
    · exact ⟨_,List.mem_cons_self,rfl,rfl⟩
    · exact ⟨p,List.mem_cons_of_mem _ later,rfl,by simp [IsPending,waiting p member]⟩

theorem resume_enqueues {rest : List (Nat × Enqueue)} {id : Nat} {e : Enqueue}
    (lock : s.lock = (mutexOf ((id,e) :: rest)).resource)
    (enqueues : ∀ id' e', s.enqueues id' = some e' ↔ (id',e') ∈ (id,e) :: rest)
    (ids : (((id,e) :: rest).map Prod.fst).Nodup) (other : Nat) (f : Enqueue) :
    (s.resume id).enqueues other = some f ↔ (other,f) ∈ grant rest := by
  obtain ⟨absent,distinct⟩ := List.nodup_cons.mp ids
  have table : (s.resume id).enqueues =
      ReadyAndGo.setStage (s.enqueues.erase id) ((rest.map Prod.fst).take 1) .granted := by
    simp only [resume,lock,mutexOf,Mutex.resource_release]
  rw [table]
  rcases eq_or_ne other id with rfl | differ
  · have gone : (other,f) ∉ grant rest := fun member =>
      absent (grant_ids rest ▸ List.mem_map.mpr ⟨_,member,rfl⟩)
    simp only [ReadyAndGo.setStage,Table.erase_same,Option.map_none,ite_self,gone,iff_false]
    exact fun found => by cases found
  · have old := enqueues other
    simp only [List.mem_cons,Prod.mk.injEq,differ,false_and,false_or] at old
    cases rest with
    | nil => simpa [ReadyAndGo.setStage,Table.erase_other _ differ,grant] using old f
    | cons first more =>
      obtain ⟨i,g⟩ := first
      simp only [ReadyAndGo.setStage,Table.erase_other _ differ,List.map_cons,List.take_succ_cons,
        List.take_zero,grant,List.mem_cons,Prod.mk.injEq]
      rcases eq_or_ne other i with rfl | later
      · have found := (old g).mpr List.mem_cons_self
        have once : (other,f) ∉ more := fun member =>
          (List.nodup_cons.mp distinct).1 (List.mem_map.mpr ⟨_,member,rfl⟩)
        simp [found,once,eq_comm]
      · simpa [later] using old f

theorem resume_sound {rest : List (Nat × Enqueue)} {id : Nat} {e : Enqueue}
    (sound : Sound cfg work groups early ((id,e) :: rest) s) (stage : e.stage = .reducing)
    (ended : s.clients.awaits id = false) (attended : Attended work groups ((id,e) :: rest)) :
    Sound cfg work groups early (grant rest) (s.resume id) ∧ Attended work groups (grant rest) := by
  have waiting : ∀ p ∈ rest, p.2.stage = .requested := sound.tail
  have runs : IsPending (id,e) = false := by simp [IsPending,stage]
  -- a collective in progress would be the one that this call awaits
  have idle (j t : Nat) (layer : t < (work.model j).length) : (groups j t).phase = .gathering 0 := by
    by_contra later
    obtain ⟨p,⟨⟩,_,_,_,outstanding,phase,some⟩ := sound.reducing j t layer later
    obtain ⟨w,member⟩ := List.exists_mem_of_ne_nil _ some
    have called : (⟨id,⟨⟨w,j,t⟩,(groups j t).turn⟩⟩ : Call) ∈ s.clients.calls := by
      have calls := (sound.pipelined.consistent.represents j t layer).calls
      apply List.mem_of_mem_filter (calls.symm.subset _)
      rw [Group.calls,phase]
      exact List.mem_map.mpr ⟨w,member,rfl⟩
    have awaits : s.clients.awaits id = true :=
      List.any_eq_true.mpr ⟨_,called,beq_self_eq_true id⟩
    exact Bool.false_ne_true (ended.symm.trans awaits)
  have line := grant_ids rest
  have kept (p : Nat × Enqueue) (member : p ∈ grant rest) :=
    mem_grant waiting member
  have ids := (List.nodup_cons.mp sound.ids).2
  have table := resume_enqueues sound.lock sound.enqueues sound.ids
  constructor
  · constructor
    case pipelined => exact sound.pipelined
    case retired => exact sound.retired
    case queue => exact sound.queue
    case whole => exact sound.whole
    case collected => exact sound.collected
    case lock =>
      simp only [resume,sound.lock,mutexOf,Mutex.resource_release]
      cases rest <;> rfl
    case enqueues => exact table
    case ids => rw [line]; exact ids
    case fresh =>
      intro other beyond
      apply Option.eq_none_iff_forall_ne_some.mpr
      intro f found
      obtain ⟨q,old,same,_⟩ := kept _ ((table other f).mp found)
      have known := (sound.enqueues q.1 q.2).mpr (List.mem_cons_of_mem _ old)
      rw [same,sound.fresh other beyond] at known
      cases known
    case head =>
      cases rest with
      | nil => exact fun _ none => by cases none
      | cons first more =>
        rintro p ⟨⟩
        exact Stage.noConfusion
    case tail =>
      cases rest with
      | nil => exact fun _ none => by cases none
      | cons first more => exact fun p member => waiting p (List.mem_cons_of_mem _ member)
    case pending =>
      intro p member _
      obtain ⟨q,old,_,same,_,waits⟩ := kept p member
      exact same ▸ sound.pending q (List.mem_cons_of_mem _ old) waits
    case single =>
      intro p member q also _ _ sameJob sameLayer
      obtain ⟨p',old,samePid,same,_,waits⟩ := kept p member
      obtain ⟨q',old',sameQid,same',_,waits'⟩ := kept q also
      have equal := sound.single p' (List.mem_cons_of_mem _ old) q' (List.mem_cons_of_mem _ old')
        waits waits' (same ▸ same' ▸ sameJob) (same ▸ same' ▸ sameLayer)
      have sameId : p.1 = q.1 := by rw [← samePid,← sameQid,equal]
      exact List.inj_on_of_nodup_map (line ▸ ids) member also sameId
    case reducing => exact fun j t layer later => absurd (idle j t layer) later
    case order =>
      have order := sound.order
      rw [List.filter_cons_of_neg (by simp [runs])] at order
      refine order.trans (congrArg _ ?_)
      cases rest with
      | nil => rfl
      | cons first more =>
        simp [grant,IsPending,waiting first List.mem_cons_self]
  · intro j t layer phase some full
    obtain ⟨p,member,waits,sameJob,sameLayer⟩ := attended j t layer phase some full
    rcases List.mem_cons.mp member with rfl | old
    · exact absurd (waits.symm.trans runs) (by decide)
    · obtain ⟨q,known,same,waits⟩ := grant_mem waiting old
      exact ⟨q,known,waits,same ▸ sameJob,same ▸ sameLayer⟩

def Inv (cfg : Config) (work : Workload) (s : FirstInFirstOutOneByOne) : Prop :=
  ∃ groups early line, Sound cfg work groups early line s ∧ Attended work groups line

theorem initial_inv (cfg : Config) (work : Workload) : Inv cfg work (initial work) :=
  ⟨_,_,_,initial_sound cfg work,fun _ _ _ _ some => absurd rfl some⟩

theorem enqueue_inv (distinct : work.DistinctKeys cfg) (inv : Inv cfg work s) {r : TensorRef}
    (may : s.clients.MayEnqueue work r) : Inv cfg work (s.enqueue cfg work r) := by
  obtain ⟨groups,early,line,sound,attended⟩ := inv
  have layer := may.1.2
  have most : (groups r.job r.tensorId).arrived.length ≤ work.numWorkersAllocated r.job :=
    (sound.pipelined.consistent.represents _ _ layer).wellFormed.arrived_le
  unfold enqueue
  dsimp only
  rcases Nat.lt_or_eq_of_le most with room | full
  · have phase := sound.pipelined.gathering_of_room layer room
    obtain ⟨_,_,turn⟩ := sound.pipelined.enqueue may room
    have pushed := push_sound distinct sound may room
    have queued := pushed.queue r.job r.tensorId layer
    rw [setGroup_same,Group.arrive_phase,if_pos phase] at queued
    change (s.push cfg r).queue.get (r.key cfg) = _ at queued
    have length : ((s.push cfg r).queue.get (r.key cfg)).length =
        (groups r.job r.tensorId).arrived.length + 1 := by
      simp [queued,Group.entries]
    have others (j t : Nat) (other : ¬(j = r.job ∧ t = r.tensorId)) (inside : t < (work.model j).length)
        (phase' : (setGroup groups r.job r.tensorId
          ((groups r.job r.tensorId).arrive r.machine) j t).phase = .gathering 0)
        (some : (setGroup groups r.job r.tensorId
          ((groups r.job r.tensorId).arrive r.machine) j t).arrived ≠ [])
        (whole : (setGroup groups r.job r.tensorId
          ((groups r.job r.tensorId).arrive r.machine) j t).arrived.length =
          work.numWorkersAllocated j) :
        ∃ p ∈ line, IsPending p = true ∧ p.2.entry.tensor.job = j ∧
          p.2.entry.tensor.tensorId = t := by
      rw [setGroup_other other] at phase' some whole
      exact attended j t inside phase' some whole
    split
    case isTrue full =>
      have alone (p : Nat × Enqueue) (member : p ∈ line) (waits : IsPending p = true) :
          ¬(p.2.entry.tensor.job = r.job ∧ p.2.entry.tensor.tensorId = r.tensorId) := by
        intro here
        have was := (sound.pending p member waits).full
        rw [here.1,here.2] at was
        omega
      have pending : Pending work
          (setGroup groups r.job r.tensorId ((groups r.job r.tensorId).arrive r.machine))
          (s.clients.nextEntry r) := by
        constructor
        case allocated => exact may.1
        case phase => simpa [Clients.nextEntry] using phase
        case full => simpa [Clients.nextEntry] using length.symm.trans full
        case turn => simpa [Clients.nextEntry] using turn
      refine ⟨_,_,_,request_sound pushed (s.clients.nextEntry r) pending alone,
        fun j t inside phase' some whole => ?_⟩
      by_cases here : j = r.job ∧ t = r.tensorId
      · obtain ⟨rfl,rfl⟩ := here
        exact ⟨_,List.mem_append_right _ (List.mem_singleton_self _),
          isPending_requested _ _ _,rfl,rfl⟩
      · obtain ⟨p,member,facts⟩ := others j t here inside phase' some whole
        exact ⟨p,List.mem_append_left _ member,facts⟩
    case isFalse partly =>
      refine ⟨_,_,_,pushed,fun j t inside phase' some whole => ?_⟩
      by_cases here : j = r.job ∧ t = r.tensorId
      · obtain ⟨rfl,rfl⟩ := here
        rw [setGroup_same,Group.arrive_arrived,List.length_append,List.length_singleton] at whole
        exact absurd (length.trans whole) partly
      · exact others j t here inside phase' some whole
  · obtain ⟨pushed,few⟩ := push_early_sound distinct sound may full
    rw [if_neg few.ne]
    exact ⟨_,_,_,pushed,attended⟩

theorem step_inv (distinct : work.DistinctKeys cfg) (l : Label) (s t : FirstInFirstOutOneByOne)
    (inv : Inv cfg work s) (taken : step cfg work l s = some t) : Inv cfg work t := by
  cases l with
  | enqueue r =>
    simp only [step] at taken
    split at taken
    · rename_i may
      cases taken
      exact enqueue_inv distinct inv may
    · cases taken
  | start id =>
    obtain ⟨e,known,taken⟩ := Option.bind_eq_some_iff.mp taken
    split at taken
    · rename_i granted
      cases taken
      obtain ⟨groups,early,line,sound,attended⟩ := inv
      obtain ⟨rest,rfl⟩ := sound.first known (by rw [granted]; exact Stage.noConfusion)
      have waits : IsPending (id,e) = true := by simp [IsPending,granted]
      refine ⟨_,_,_,start_sound distinct sound granted,fun j t inside phase some whole => ?_⟩
      by_cases here : j = e.entry.tensor.job ∧ t = e.entry.tensor.tensorId
      · obtain ⟨rfl,rfl⟩ := here
        simp at phase
      · rw [setGroup_other here] at phase some whole
        obtain ⟨p,member,pending,sameJob,sameLayer⟩ := attended j t inside phase some whole
        rcases List.mem_cons.mp member with rfl | later
        · exact absurd ⟨sameJob.symm,sameLayer.symm⟩ here
        · exact ⟨p,List.mem_cons_of_mem _ later,pending,sameJob,sameLayer⟩
    · cases taken
  | complete call =>
    obtain ⟨clients,completed,taken⟩ := Option.bind_eq_some_iff.mp taken
    obtain ⟨called,rfl⟩ := Clients.complete_some completed
    cases taken
    obtain ⟨groups,early,line,sound,attended⟩ := inv
    obtain ⟨groups',early',sound',attended'⟩ := complete_sound sound called attended
    exact ⟨groups',early',line,sound',attended'⟩
  | resume id =>
    obtain ⟨e,known,taken⟩ := Option.bind_eq_some_iff.mp taken
    split at taken
    · rename_i allowed
      cases taken
      obtain ⟨groups,early,line,sound,attended⟩ := inv
      obtain ⟨rest,rfl⟩ := sound.first known (by rw [allowed.1]; exact Stage.noConfusion)
      exact ⟨_,_,_,resume_sound sound allowed.1 allowed.2 attended⟩
    · cases taken
  | finish w j =>
    simp only [step] at taken
    split at taken
    · rename_i may
      cases taken
      obtain ⟨groups,early,line,sound,attended⟩ := inv
      exact ⟨groups,early,line,{ sound with
        pipelined := sound.pipelined.finish w j
        retired := sound.retired.finish may },attended⟩
    · cases taken

/-- One collective at a time; each on one entry of every worker of its job, all from one
iteration; started in the order in which the groups were completed; and each enqueue waits in the
queue or is in one collective, which reduces it by one call, in progress or ended. The tensors that
suspended calls still read exist, and while all calls wait for the lock there is no full group. -/
structure Exact (cfg : Config) (work : Workload) (s : FirstInFirstOutOneByOne) : Prop where
  exclusive : ∀ id e other f, s.enqueues id = some e → s.enqueues other = some f →
    e.stage = .reducing → f.stage = .reducing → id = other
  together : ∀ call ∈ s.clients.calls, ∃ id e, s.enqueues id = some e ∧ e.stage = .reducing ∧
    call.waiter = id ∧ call.entry.tensor.job = e.entry.tensor.job ∧
    call.entry.tensor.tensorId = e.entry.tensor.tensorId
  whole : ∀ collective ∈ s.collectives, Whole work collective
  ordered : s.collectives.map Collective.opener <+: s.completed
  once : ∀ r, work.Allocates r → ∀ turn < s.clients.enqueued r,
    let started := (s.collectives.flatMap fun collective =>
      collective.entries.map Prod.fst).count ⟨r,turn⟩
    (s.queue.get (r.key cfg)).count ⟨r,turn⟩ + started = 1 ∧
      (s.clients.calls.map Call.entry).count ⟨r,turn⟩ + s.clients.served.count ⟨r,turn⟩ = started
  readable : ∀ id e, s.enqueues id = some e → e.stage ≠ .reducing → s.Readable e
  live : (∀ id e, s.enqueues id = some e → e.stage = .requested) → ∀ r, work.Allocates r →
    (s.queue.get (r.key cfg)).length < work.numWorkersAllocated r.job

theorem Sound.once (sound : Sound cfg work groups early line s) {r : TensorRef}
    (allocates : work.Allocates r) {turn : Nat} (before : turn < s.clients.enqueued r) :
    let started := (s.collectives.flatMap fun collective =>
      collective.entries.map Prod.fst).count ⟨r,turn⟩
    (s.queue.get (r.key cfg)).count ⟨r,turn⟩ + started = 1 ∧
      (s.clients.calls.map Call.entry).count ⟨r,turn⟩ + s.clients.served.count ⟨r,turn⟩ =
        started := by
  obtain ⟨w,j,t⟩ := r
  obtain ⟨worker,layer⟩ := allocates
  dsimp only at worker layer
  have rep := sound.pipelined.consistent.represents j t layer
  obtain ⟨served,calls⟩ := sound.pipelined.reduced_once layer worker turn
  have collected := sound.collected j t layer w worker turn
  have queued : s.queue.get (TensorRef.key cfg ⟨w,j,t⟩) = _ := sound.queue j t layer
  rw [sound.pipelined.enqueued_eq layer worker] at before
  dsimp only
  rw [served,calls,collected,queued]
  by_cases first : (groups j t).phase = .gathering 0
  · rw [sound.pipelined.early_nil layer first,if_neg List.not_mem_nil,Nat.add_zero] at before
    have inGroup : (⟨⟨w,j,t⟩,turn⟩ : Entry) ∈ (groups j t).entries j t ↔
        turn = (groups j t).turn ∧ w ∈ (groups j t).arrived := by simp [Group.mem_entries]
    rw [if_pos first,Group.count_entries rep.wellFormed.distinct]
    simp only [inGroup,Group.outstanding,Group.ended,first]
    by_cases arrived : w ∈ (groups j t).arrived
    · rw [if_pos arrived] at before
      by_cases now : turn = (groups j t).turn
      · simp [now,arrived]
      · have past : turn < (groups j t).turn := by omega
        simp [now,past]
    · rw [if_neg arrived] at before
      have past : turn < (groups j t).turn := by omega
      simp [past,past.ne,arrived]
  · have full := rep.wellFormed.full first
    obtain ⟨_,_,_,_,_,outstanding,phase,_⟩ := sound.reducing j t layer first
    have inNext : (⟨⟨w,j,t⟩,turn⟩ : Entry) ∈ ((groups j t).advance (early j t)).entries j t ↔
        turn = (groups j t).turn + 1 ∧ w ∈ early j t := by
      simp [Group.mem_entries,Group.advance]
    rw [if_neg first,Group.count_entries (show (Group.advance _ _).arrived.Nodup from
      sound.pipelined.distinct j t layer)]
    rw [if_pos (rep.mem_arrived full worker)] at before
    simp only [inNext,Group.outstanding,Group.ended,phase,Group.Last]
    by_cases ahead : w ∈ early j t
    · rw [if_pos ahead] at before
      by_cases now : turn = (groups j t).turn + 1
      · simp [now,ahead]
      · have order : turn < (groups j t).turn ∨ turn = (groups j t).turn := by omega
        rcases order with past | rfl
        · simp [now,past,past.ne]
        · by_cases working : w ∈ outstanding <;> simp [working]
    · rw [if_neg ahead] at before
      have order : turn < (groups j t).turn ∨ turn = (groups j t).turn := by omega
      rcases order with past | rfl
      · simp [ahead,past,past.ne]
      · by_cases working : w ∈ outstanding <;> simp [working,ahead]

theorem Inv.exact (inv : Inv cfg work s) : Exact cfg work s := by
  obtain ⟨groups,early,line,sound,attended⟩ := inv
  constructor
  case exclusive =>
    intro id e other f known also stage stage'
    obtain ⟨rest,rfl⟩ := sound.first known (by rw [stage]; exact Stage.noConfusion)
    obtain ⟨rest',same⟩ := sound.first also (by rw [stage']; exact Stage.noConfusion)
    injection same with same
    exact congrArg Prod.fst same
  case together =>
    intro call called
    obtain ⟨j,t,w,chunks,waiter,outstanding,layer,phase,member,rfl,_⟩ :=
      sound.pipelined.answer called
    obtain ⟨p,first,runs,sameJob,sameLayer,_,reduces,_⟩ :=
      sound.reducing j t layer (by rw [phase]; exact Phase.noConfusion)
    rw [phase] at reduces
    cases reduces
    have stage : p.2.stage = .reducing := by simpa [IsPending] using runs
    exact ⟨p.1,p.2,(sound.enqueues _ _).mpr (List.mem_of_mem_head? first),stage,rfl,sameJob.symm,
      sameLayer.symm⟩
  case whole => exact sound.whole
  case ordered => exact sound.order ▸ List.prefix_append _ _
  case once => exact fun r allocates turn before => sound.once allocates before
  case readable =>
    intro id e known stage
    have pending := sound.pending _ ((sound.enqueues id e).mp known) (by simpa [IsPending] using stage)
    have worker := pending.allocated.1
    apply sound.retired.unfinished sound.pipelined pending.allocated.2 worker
    · intro none
      have full := pending.full
      rw [none] at full
      exact absurd full.symm (List.length_pos_of_mem worker).ne'
    · simp [Group.ended,pending.phase]
  case live =>
    intro idle r allocates
    have nobody : line = [] := by
      cases line with
      | nil => rfl
      | cons p rest =>
        have stage := idle p.1 p.2 ((sound.enqueues p.1 p.2).mpr List.mem_cons_self)
        exact absurd stage (sound.head p rfl)
    subst nobody
    have layer := allocates.2
    have phase : (groups r.job r.tensorId).phase = .gathering 0 := by
      by_contra later
      obtain ⟨p,first,_⟩ := sound.reducing _ _ layer later
      cases first
    have queued : s.queue.get (r.key cfg) = _ := sound.queue r.job r.tensorId layer
    rw [queued,if_pos phase,Group.entries,List.length_map]
    have most := (sound.pipelined.consistent.represents _ _ layer).wellFormed.arrived_le
    apply Nat.lt_of_le_of_ne most
    intro full
    have some : (groups r.job r.tensorId).arrived ≠ [] := by
      intro none
      rw [none] at full
      exact absurd full.symm (List.length_pos_of_mem allocates.1).ne'
    obtain ⟨p,member,_⟩ := attended _ _ layer phase some full
    cases member

/-- In every run, whatever the order of enqueues, grants and completions. -/
theorem first_in_first_out_exact (cfg : Config) (work : Workload) (distinct : work.DistinctKeys cfg)
    (s : FirstInFirstOutOneByOne)
    (run : Runs.Run (step cfg work) Runs.anyStep (initial work) s) : Exact cfg work s :=
  (run.invariant (fun l s t inv _ => step_inv distinct l s t inv) (initial_inv cfg work)).exact

/-- The faster worker enqueues its next iteration while the slower one still reduces. -/
theorem first_in_first_out_exact_early :
    ∃ s, Runs.Run (step oneLayerConfig oneLayer) Runs.anyStep (initial oneLayer) s ∧
      s.collectives.length = 2 ∧ Exact oneLayerConfig oneLayer s := by
  have ends : (Runs.exec (step oneLayerConfig oneLayer) Runs.anyStep
      [.enqueue ⟨0,0,0⟩,.enqueue ⟨1,0,0⟩,.start 0,.complete ⟨0,⟨⟨0,0,0⟩,0⟩⟩,.enqueue ⟨0,0,0⟩,
        .complete ⟨0,⟨⟨1,0,0⟩,0⟩⟩,.enqueue ⟨1,0,0⟩,.resume 0,.start 1] (initial oneLayer)).map
      (fun s => s.collectives.length) = some 2 := by decide
  obtain ⟨s,run,collectives⟩ := Runs.exists_run_of_exec ends
  exact ⟨s,run,collectives,first_in_first_out_exact _ _ oneLayer_distinctKeys s run⟩

end FirstInFirstOutOneByOne
end CloudSim
