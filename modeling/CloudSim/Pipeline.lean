import CloudSim.Group

/-! Groups of one layer that overlap: while the slower workers still reduce the last chunk of one
turn, the faster ones arrive for the next. Apart from these early arrivals the clients are those of
a scheduler that closes every turn before the next begins. -/
namespace CloudSim

def Clients.without (c : Clients) (early : Nat → Nat → List Nat) : Clients :=
  { c with enqueued := fun r =>
      c.enqueued r - if r.machine ∈ early r.job r.tensorId then 1 else 0 }

def setNext (early : Nat → Nat → List Nat) (j t : Nat) (ws : List Nat) : Nat → Nat → List Nat :=
  fun i k => if i = j ∧ k = t then ws else early i k

@[simp] theorem setNext_same (early : Nat → Nat → List Nat) (j t : Nat) (ws : List Nat) :
    setNext early j t ws j t = ws := by simp [setNext]

theorem setNext_other {early : Nat → Nat → List Nat} {ws : List Nat} (other : ¬(i = j ∧ k = t)) :
    setNext early j t ws i k = early i k := by simp [setNext,other]

@[simp] theorem setNext_self (early : Nat → Nat → List Nat) (j t : Nat) :
    setNext early j t (early j t) = early := by
  funext i k
  by_cases here : i = j ∧ k = t
  · obtain ⟨rfl,rfl⟩ := here
    exact setNext_same ..
  · exact setNext_other here

theorem setGroup_twice (groups : Nat → Nat → Group) (j t : Nat) (g h : Group) :
    setGroup (setGroup groups j t g) j t h = setGroup groups j t h := by
  funext i k
  by_cases here : i = j ∧ k = t <;> simp [setGroup,here]

namespace Group

def advance (g : Group) (early : List Nat) : Group := { turn := g.turn + 1, arrived := early }

def outstanding (g : Group) : List Nat :=
  match g.phase with
  | .reducing _ _ outstanding => outstanding
  | _ => []

def leaving (chunkSize size : Nat) (g : Group) : Bool :=
  match g.phase with
  | .gathering _ => false
  | .reducing chunks _ _ => decide (Last chunkSize size chunks)
  | .served => true

/-- The group after a call of its round has ended. The last call ends the round. -/
def answered (chunkSize size : Nat) (g : Group) (chunks waiter : Nat) (outstanding : List Nat)
    (w : Nat) : Group :=
  if outstanding.erase w = [] then g.settle chunkSize size chunks
  else g.answer chunks waiter outstanding w

/-- The group and the early arrivals after a call has ended. The last call of the last round makes
the early arrivals the next group. -/
def complete (chunkSize size : Nat) (g : Group) (chunks waiter : Nat) (outstanding : List Nat)
    (w : Nat) (early : List Nat) : Group × List Nat :=
  if outstanding.erase w = [] ∧ Last chunkSize size chunks then (g.advance early,[])
  else (g.answered chunkSize size chunks waiter outstanding w,early)

section answered
variable (chunkSize size : Nat) (g : Group) (chunks waiter w : Nat) (outstanding : List Nat)

@[simp] theorem answered_turn :
    (g.answered chunkSize size chunks waiter outstanding w).turn = g.turn := by
  unfold answered; split <;> rfl

@[simp] theorem answered_arrived :
    (g.answered chunkSize size chunks waiter outstanding w).arrived = g.arrived := by
  unfold answered; split <;> rfl

theorem answered_ended (phase : g.phase = .reducing chunks waiter outstanding)
    (ended : g.ended chunkSize size v = true) :
    (g.answered chunkSize size chunks waiter outstanding w).ended chunkSize size v = true := by
  simp only [Group.ended,phase,decide_eq_true_eq] at ended
  unfold answered
  split
  · simp [Group.ended,ended.1]
  · simpa [Group.ended,ended.1] using fun again => ended.2 (List.mem_of_mem_erase again)

theorem answered_leaving (phase : g.phase = .reducing chunks waiter outstanding) :
    (g.answered chunkSize size chunks waiter outstanding w).leaving chunkSize size =
      g.leaving chunkSize size := by
  unfold answered
  split
  · by_cases last : Last chunkSize size chunks <;> simp [leaving,phase,last]
  · simp [leaving,phase]

end answered

end Group

structure Pipelined (work : Workload) (chunkSize : Nat) (groups : Nat → Nat → Group)
    (early : Nat → Nat → List Nat) (c : Clients) : Prop where
  consistent : Consistent work chunkSize groups (c.without early)
  ended : ∀ j t, t < (work.model j).length → ∀ w ∈ early j t, w ∈ work.widsAllocated j ∧
    (groups j t).ended chunkSize (work.size j t) w = true
  distinct : ∀ j t, t < (work.model j).length → (early j t).Nodup
  turnsLeft : ∀ j t, t < (work.model j).length → early j t ≠ [] →
    (groups j t).turn + 1 < work.nIter j

namespace Pipelined
variable {work : Workload} {chunkSize : Nat} {groups : Nat → Nat → Group}
  {early : Nat → Nat → List Nat} {c : Clients} {j t : Nat}

theorem initial (work : Workload) (chunkSize : Nat) :
    Pipelined work chunkSize (fun _ _ => {}) (fun _ _ => []) (Clients.initial work) where
  consistent := Consistent.initial work chunkSize
  ended _ _ _ _ member := by cases member
  distinct _ _ _ := List.nodup_nil
  turnsLeft _ _ _ some := absurd rfl some

/-- Nobody arrives for the next turn before the last round of this one. -/
theorem early_nil (pipe : Pipelined work chunkSize groups early c)
    (layer : t < (work.model j).length) (phase : (groups j t).phase = .gathering chunks) :
    early j t = [] := by
  apply List.eq_nil_iff_forall_not_mem.mpr
  intro w member
  have ended := (pipe.ended j t layer w member).2
  simp [Group.ended,phase] at ended

theorem gathering_of_room (pipe : Pipelined work chunkSize groups early c)
    (layer : t < (work.model j).length)
    (room : (groups j t).arrived.length < work.numWorkersAllocated j) :
    (groups j t).phase = .gathering 0 := by
  by_contra later
  exact absurd ((pipe.consistent.represents j t layer).wellFormed.full later) room.ne

theorem enqueue (pipe : Pipelined work chunkSize groups early c) {r : TensorRef}
    (may : c.MayEnqueue work r)
    (room : (groups r.job r.tensorId).arrived.length < work.numWorkersAllocated r.job) :
    Pipelined work chunkSize
      (setGroup groups r.job r.tensorId ((groups r.job r.tensorId).arrive r.machine)) early
      (c.enqueue r) ∧ r.machine ∉ (groups r.job r.tensorId).arrived ∧
      c.enqueued r = (groups r.job r.tensorId).turn := by
  have layer := may.1.2
  have phase := pipe.gathering_of_room layer room
  have none := pipe.early_nil layer phase
  have here : (c.without early).enqueued r = c.enqueued r := by simp [Clients.without,none]
  have may' : (c.without early).MayEnqueue work r :=
    ⟨may.1,may.2.1,here ▸ may.2.2.1,here ▸ may.2.2.2⟩
  have same : (c.enqueue r).without early = (c.without early).enqueue r := by
    simp only [Clients.without,Clients.enqueue,Clients.mk.injEq,true_and,and_true]
    funext i
    by_cases equal : i = r
    · subst equal; simp [none]
    · simp [equal]
  obtain ⟨_,absent,turn⟩ := (pipe.consistent.represents _ _ layer).of_room may' room
  refine ⟨⟨same ▸ pipe.consistent.enqueue may' room,fun i k inside w member => ?_,pipe.distinct,
    fun i k inside some => ?_⟩,absent,here ▸ turn⟩
  · have old := pipe.ended i k inside w member
    by_cases here : i = r.job ∧ k = r.tensorId
    · obtain ⟨rfl,rfl⟩ := here
      rw [none] at member
      cases member
    · rwa [setGroup_other here]
  · have old := pipe.turnsLeft i k inside some
    by_cases here : i = r.job ∧ k = r.tensorId
    · obtain ⟨rfl,rfl⟩ := here
      rwa [setGroup_same]
    · rwa [setGroup_other here]

/-- An enqueue while the group is full comes from a worker that has ended the pass. -/
theorem enqueue_early (pipe : Pipelined work chunkSize groups early c) {r : TensorRef}
    (may : c.MayEnqueue work r)
    (full : (groups r.job r.tensorId).arrived.length = work.numWorkersAllocated r.job) :
    Pipelined work chunkSize groups
      (setNext early r.job r.tensorId (early r.job r.tensorId ++ [r.machine])) (c.enqueue r) ∧
      (groups r.job r.tensorId).ended chunkSize (work.size r.job r.tensorId) r.machine = true ∧
      r.machine ∉ early r.job r.tensorId ∧ c.enqueued r = (groups r.job r.tensorId).turn + 1 := by
  obtain ⟨⟨worker,layer⟩,several,left,free⟩ := may
  have rep := pipe.consistent.represents _ _ layer
  have arrived := rep.mem_arrived full worker
  have enqueued : c.enqueued r - (if r.machine ∈ early r.job r.tensorId then 1 else 0) =
      (groups r.job r.tensorId).turn + if r.machine ∈ (groups r.job r.tensorId).arrived then 1
        else 0 := rep.enqueued r.machine worker
  have iter : (c.tensor r).iter = (groups r.job r.tensorId).turn +
      ((groups r.job r.tensorId).ended chunkSize (work.size r.job r.tensorId) r.machine).toNat :=
    rep.iter r.machine worker
  rw [if_pos arrived] at enqueued
  have most := Bool.toNat_le
    ((groups r.job r.tensorId).ended chunkSize (work.size r.job r.tensorId) r.machine)
  have fresh : r.machine ∉ early r.job r.tensorId := by
    intro member
    rw [if_pos member] at enqueued
    omega
  rw [if_neg fresh,Nat.sub_zero] at enqueued
  have ended : (groups r.job r.tensorId).ended chunkSize (work.size r.job r.tensorId)
      r.machine = true := by
    by_contra not
    rw [Bool.eq_false_iff.mpr not,Bool.toNat_false] at iter
    omega
  have same : (c.enqueue r).without
      (setNext early r.job r.tensorId (early r.job r.tensorId ++ [r.machine])) =
      c.without early := by
    simp only [Clients.without,Clients.enqueue,Clients.mk.injEq,true_and,and_true]
    funext i
    by_cases equal : i = r
    · subst equal; simp [fresh]
    · by_cases here : i.job = r.job ∧ i.tensorId = r.tensorId
      · have other : i.machine ≠ r.machine := fun machine => equal (by
          obtain ⟨a,b,d⟩ := i
          obtain ⟨rfl,rfl⟩ := here
          exact congrArg (TensorRef.mk · _ _) machine)
        simp [equal,here,other]
      · rw [if_neg equal,setNext_other here]
  refine ⟨⟨same ▸ pipe.consistent,fun i k inside w member => ?_,fun i k inside => ?_,
    fun i k inside some => ?_⟩,ended,fresh,enqueued⟩
  · by_cases here : i = r.job ∧ k = r.tensorId
    · obtain ⟨rfl,rfl⟩ := here
      rw [setNext_same] at member
      rcases List.mem_append.mp member with old | new
      · exact pipe.ended _ _ inside w old
      · rw [List.mem_singleton.mp new]
        exact ⟨worker,ended⟩
    · rw [setNext_other here] at member
      exact pipe.ended i k inside w member
  · by_cases here : i = r.job ∧ k = r.tensorId
    · obtain ⟨rfl,rfl⟩ := here
      rw [setNext_same]
      exact List.nodup_append.mpr ⟨pipe.distinct _ _ inside,List.nodup_singleton _,by
        intro a member b same
        rw [List.mem_singleton.mp same]
        rintro rfl
        exact fresh member⟩
    · rw [setNext_other here]
      exact pipe.distinct i k inside
  · by_cases here : i = r.job ∧ k = r.tensorId
    · obtain ⟨rfl,rfl⟩ := here
      rw [← enqueued]
      exact left
    · rw [setNext_other here] at some
      exact pipe.turnsLeft i k inside some

/-- An update of one group that keeps its turn and who has ended. -/
theorem regroup (pipe : Pipelined work chunkSize groups early c) {g : Group} {d : Clients}
    (consistent : Consistent work chunkSize (setGroup groups j t g) (d.without early))
    (turn : g.turn = (groups j t).turn)
    (ended : ∀ w ∈ early j t, (groups j t).ended chunkSize (work.size j t) w = true →
      g.ended chunkSize (work.size j t) w = true) :
    Pipelined work chunkSize (setGroup groups j t g) early d := by
  refine ⟨consistent,fun i k inside w member => ?_,pipe.distinct,fun i k inside some => ?_⟩
  · have old := pipe.ended i k inside w member
    by_cases here : i = j ∧ k = t
    · obtain ⟨rfl,rfl⟩ := here
      rw [setGroup_same]
      exact ⟨old.1,ended w member old.2⟩
    · rwa [setGroup_other here]
  · have old := pipe.turnsLeft i k inside some
    by_cases here : i = j ∧ k = t
    · obtain ⟨rfl,rfl⟩ := here
      rwa [setGroup_same,turn]
    · rwa [setGroup_other here]

theorem launch (pipe : Pipelined work chunkSize groups early c)
    (layer : t < (work.model j).length) (phase : (groups j t).phase = .gathering chunks)
    (full : (groups j t).arrived.length = work.numWorkersAllocated j) (waiter : Nat) :
    Pipelined work chunkSize (setGroup groups j t ((groups j t).launch chunks waiter)) early
      (c.allreduce waiter ((groups j t).entries j t)) := by
  refine pipe.regroup (pipe.consistent.launch layer phase full waiter) rfl fun w member => ?_
  rw [pipe.early_nil layer phase] at member
  cases member

/-- A call that ends belongs to the round of its layer, and the last such call ends the round. -/
theorem answer (pipe : Pipelined work chunkSize groups early c) (called : call ∈ c.calls) :
    ∃ j t w chunks waiter outstanding, t < (work.model j).length ∧
      (groups j t).phase = .reducing chunks waiter outstanding ∧ w ∈ outstanding ∧
      call = ⟨waiter,⟨⟨w,j,t⟩,(groups j t).turn⟩⟩ ∧
      Pipelined work chunkSize (setGroup groups j t
        ((groups j t).answered chunkSize (work.size j t) chunks waiter outstanding w)) early
        (c.answer chunkSize call) := by
  obtain ⟨j,t,w,chunks,waiter,outstanding,layer,phase,member,rfl,answered⟩ :=
    pipe.consistent.answer (show call ∈ (c.without early).calls from called)
  refine ⟨j,t,w,chunks,waiter,outstanding,layer,phase,member,rfl,?_⟩
  refine pipe.regroup ?_ (Group.answered_turn ..) fun v _ => Group.answered_ended _ _ _ _ _ _ _ phase
  by_cases last : outstanding.erase w = []
  · have reducing : (setGroup groups j t ((groups j t).answer chunks waiter outstanding w) j t).phase =
        .reducing chunks waiter [] := by simp [last]
    have settled := answered.settle reducing
    rw [setGroup_same,setGroup_twice] at settled
    rwa [Group.answered,if_pos last]
  · rw [Group.answered,if_neg last]
    exact answered

/-- The turn is over, and the early arrivals are those of the next group. -/
theorem promote (pipe : Pipelined work chunkSize groups early c)
    (layer : t < (work.model j).length) (phase : (groups j t).phase = .served) :
    Pipelined work chunkSize (setGroup groups j t ((groups j t).advance (early j t)))
      (setNext early j t []) c := by
  have closed := (pipe.consistent.represents j t layer).close phase
  have advanced : Represents work chunkSize (c.without (setNext early j t [])) j t
      ((groups j t).advance (early j t)) := by
    constructor
    case wellFormed =>
      refine ⟨fun w member => (pipe.ended j t layer w member).1,pipe.distinct j t layer,
        fun later => absurd rfl later,?_,?_⟩
      · rintro _ ⟨⟩; exact Or.inl rfl
      · rintro _ _ _ ⟨⟩
    case turnsLeft => exact pipe.turnsLeft j t layer
    case size => exact closed.size
    case iter => exact closed.iter
    case allreducedSize => exact closed.allreducedSize
    case served => exact closed.served
    case reduced => exact closed.reduced
    case calls => exact closed.calls
    case enqueued =>
      intro w member
      have old : c.enqueued ⟨w,j,t⟩ - (if w ∈ early j t then 1 else 0) = (groups j t).turn + 1 :=
        closed.enqueued w member
      have now : (c.without (setNext early j t [])).enqueued ⟨w,j,t⟩ = c.enqueued ⟨w,j,t⟩ := by
        simp [Clients.without]
      rw [now,Group.advance]
      dsimp only
      by_cases arrived : w ∈ early j t
      · rw [if_pos arrived] at old ⊢
        omega
      · rw [if_neg arrived] at old ⊢
        omega
  refine ⟨⟨fun i k inside => ?_,pipe.consistent.allocated⟩,fun i k inside w member => ?_,
    fun i k inside => ?_,fun i k inside some => ?_⟩
  · by_cases here : i = j ∧ k = t
    · obtain ⟨rfl,rfl⟩ := here
      rwa [setGroup_same]
    · rw [setGroup_other here]
      refine (pipe.consistent.represents i k inside).frame (fun _ => rfl) (fun w => ?_)
        (fun _ _ => rfl) (fun _ _ => rfl) (List.Perm.refl _)
      simp [Clients.without,setNext_other here]
  · by_cases here : i = j ∧ k = t
    · obtain ⟨rfl,rfl⟩ := here
      rw [setNext_same] at member
      cases member
    · rw [setNext_other here] at member
      rw [setGroup_other here]
      exact pipe.ended i k inside w member
  · by_cases here : i = j ∧ k = t
    · obtain ⟨rfl,rfl⟩ := here
      rw [setNext_same]
      exact List.nodup_nil
    · rw [setNext_other here]
      exact pipe.distinct i k inside
  · by_cases here : i = j ∧ k = t
    · obtain ⟨rfl,rfl⟩ := here
      rw [setNext_same] at some
      exact absurd rfl some
    · rw [setNext_other here] at some
      rw [setGroup_other here]
      exact pipe.turnsLeft i k inside some

/-- While a worker has not ended the pass, the next group is not full. -/
theorem early_lt (pipe : Pipelined work chunkSize groups early c)
    (layer : t < (work.model j).length) (worker : v ∈ work.widsAllocated j)
    (working : (groups j t).ended chunkSize (work.size j t) v = false) :
    (early j t).length < work.numWorkersAllocated j := by
  have absent : v ∉ early j t := fun member =>
    Bool.false_ne_true (working.symm.trans (pipe.ended j t layer v member).2)
  have inside : v :: early j t ⊆ work.widsAllocated j := by
    intro w member
    rcases List.mem_cons.mp member with rfl | known
    · exact worker
    · exact (pipe.ended j t layer w known).1
  exact ((List.nodup_cons.mpr ⟨absent,pipe.distinct j t layer⟩).subperm inside).length_le

/-- Every call that ends moves its layer to the next group with room or with calls in progress. -/
theorem complete (pipe : Pipelined work chunkSize groups early c) (called : call ∈ c.calls) :
    ∃ j t w chunks waiter outstanding, t < (work.model j).length ∧
      (groups j t).phase = .reducing chunks waiter outstanding ∧ w ∈ outstanding ∧
      call = ⟨waiter,⟨⟨w,j,t⟩,(groups j t).turn⟩⟩ ∧
      let after := (groups j t).complete chunkSize (work.size j t) chunks waiter outstanding w
        (early j t)
      Pipelined work chunkSize (setGroup groups j t after.1) (setNext early j t after.2)
        (c.answer chunkSize call) := by
  obtain ⟨j,t,w,chunks,waiter,outstanding,layer,phase,member,rfl,answered⟩ := pipe.answer called
  refine ⟨j,t,w,chunks,waiter,outstanding,layer,phase,member,rfl,?_⟩
  dsimp only
  unfold Group.complete
  split
  · rename_i ends
    have served : (setGroup groups j t ((groups j t).answered chunkSize (work.size j t) chunks waiter
        outstanding w) j t).phase = .served := by
      simp [Group.answered,ends.1,ends.2]
    have promoted := answered.promote layer served
    rw [setGroup_same,setGroup_twice] at promoted
    simpa only [Group.advance,Group.answered_turn] using promoted
  · rw [setNext_self]
    exact answered

theorem finish (pipe : Pipelined work chunkSize groups early c) (w j : Nat) :
    Pipelined work chunkSize groups early (c.finish w j) :=
  ⟨pipe.consistent.finish w j,pipe.ended,pipe.distinct,pipe.turnsLeft⟩

/-- A worker's enqueues are those of the turns before, of this one, and of the next. -/
theorem enqueued_eq (pipe : Pipelined work chunkSize groups early c)
    (layer : t < (work.model j).length) (worker : w ∈ work.widsAllocated j) :
    c.enqueued ⟨w,j,t⟩ = (groups j t).turn + (if w ∈ (groups j t).arrived then 1 else 0) +
      if w ∈ early j t then 1 else 0 := by
  have rep := pipe.consistent.represents j t layer
  have enqueued : c.enqueued ⟨w,j,t⟩ - (if w ∈ early j t then 1 else 0) =
      (groups j t).turn + if w ∈ (groups j t).arrived then 1 else 0 := rep.enqueued w worker
  by_cases ahead : w ∈ early j t
  · have full := rep.wellFormed.full fun phase => by
      rw [pipe.early_nil layer phase] at ahead
      cases ahead
    rw [if_pos (rep.mem_arrived full worker)] at enqueued ⊢
    rw [if_pos ahead] at enqueued ⊢
    omega
  · rw [if_neg ahead] at enqueued ⊢
    omega

/-- Each started turn of a worker is reduced by one call, which has ended or is in progress. -/
theorem reduced_once (pipe : Pipelined work chunkSize groups early c)
    (layer : t < (work.model j).length) (worker : w ∈ work.widsAllocated j) (turn : Nat) :
    c.served.count ⟨⟨w,j,t⟩,turn⟩ = (if turn < (groups j t).turn ∨ turn = (groups j t).turn ∧
      (groups j t).ended chunkSize (work.size j t) w = true then 1 else 0) ∧
    (c.calls.map Call.entry).count ⟨⟨w,j,t⟩,turn⟩ =
      if turn = (groups j t).turn ∧ w ∈ (groups j t).outstanding then 1 else 0 := by
  have rep := pipe.consistent.represents j t layer
  constructor
  · have served : c.served.count ⟨⟨w,j,t⟩,turn⟩ = if turn < (c.tensor ⟨w,j,t⟩).iter then 1 else 0 :=
      rep.served w worker turn
    have iter : (c.tensor ⟨w,j,t⟩).iter = _ := rep.iter w worker
    rw [served,iter]
    cases (groups j t).ended chunkSize (work.size j t) w with
    | false => simp
    | true =>
      have order : turn < (groups j t).turn + 1 ↔
          turn < (groups j t).turn ∨ turn = (groups j t).turn := by omega
      simp [order]
  · have ofLayer : (c.calls.map Call.entry).count ⟨⟨w,j,t⟩,turn⟩ =
        ((c.calls.filter (Call.ofLayer j t)).map Call.entry).count ⟨⟨w,j,t⟩,turn⟩ := by
      simp only [List.count_eq_countP,List.countP_map,List.countP_filter]
      apply List.countP_congr
      intro call _
      simp only [Function.comp_apply,beq_iff_eq,Bool.and_eq_true]
      constructor
      · intro same
        exact ⟨same,by simp [Call.ofLayer,same]⟩
      · exact And.left
    have calls : ((c.calls.filter (Call.ofLayer j t)).map Call.entry).count ⟨⟨w,j,t⟩,turn⟩ =
        (((groups j t).calls j t).map Call.entry).count ⟨⟨w,j,t⟩,turn⟩ :=
      (rep.calls.map Call.entry).count_eq _
    rw [ofLayer,calls]
    cases phase : (groups j t).phase with
    | gathering chunks => simp [Group.calls,Group.outstanding,phase]
    | served => simp [Group.calls,Group.outstanding,phase]
    | reducing chunks waiter outstanding =>
      obtain ⟨_,distinct,_⟩ := rep.wellFormed.reducing _ _ _ phase
      have entries : ((groups j t).calls j t).map Call.entry =
          outstanding.map fun v => ⟨⟨v,j,t⟩,(groups j t).turn⟩ := by
        simp [Group.calls,phase,Function.comp_def]
      have once : (outstanding.map fun v => (⟨⟨v,j,t⟩,(groups j t).turn⟩ : Entry)).Nodup := by
        apply distinct.map
        intro u v same
        injection same with same
        injection same
      rw [entries,once.count,Group.outstanding,phase]
      simp [eq_comm,and_comm]

theorem iter_of_gathering (pipe : Pipelined work chunkSize groups early c)
    (layer : t < (work.model j).length) (phase : (groups j t).phase = .gathering chunks)
    (worker : w ∈ work.widsAllocated j) : (c.tensor ⟨w,j,t⟩).iter = (groups j t).turn := by
  have iter : (c.tensor ⟨w,j,t⟩).iter = _ :=
    (pipe.consistent.represents j t layer).iter w worker
  simpa [Group.ended,phase] using iter

/-- Between two rounds every tensor of a full group is in the same iteration, equally far reduced. -/
theorem entries_uniform (pipe : Pipelined work chunkSize groups early c)
    (layer : t < (work.model j).length) (phase : (groups j t).phase = .gathering chunks)
    (full : (groups j t).arrived.length = work.numWorkersAllocated j) :
    (((groups j t).entries j t).map fun entry =>
      (entry,(c.tensor entry.tensor).iter,(c.tensor entry.tensor).allreducedSize)).Perm
      ((work.widsAllocated j).map fun w =>
        (⟨⟨w,j,t⟩,(groups j t).turn⟩,(groups j t).turn,chunks * chunkSize)) := by
  have rep := pipe.consistent.represents j t layer
  have read : ((groups j t).entries j t).map (fun entry =>
      (entry,(c.tensor entry.tensor).iter,(c.tensor entry.tensor).allreducedSize)) =
      (groups j t).arrived.map fun w =>
        (⟨⟨w,j,t⟩,(groups j t).turn⟩,(groups j t).turn,chunks * chunkSize) := by
    rw [Group.entries,List.map_map]
    apply List.map_congr_left
    intro w arrived
    have worker := rep.wellFormed.inside arrived
    have iter := pipe.iter_of_gathering layer phase worker
    have progress : (c.tensor ⟨w,j,t⟩).allreducedSize = _ := rep.allreducedSize w worker
    have reduced : (c.tensor ⟨w,j,t⟩).allreducedSize = chunks * chunkSize := by
      simpa [Group.progress,phase] using progress
    simp only [Function.comp_apply,iter,reduced]
  rw [read]
  exact (Group.full_of_length _ _ rep.wellFormed full).map _

theorem turnsLeft_of_arrived (pipe : Pipelined work chunkSize groups early c)
    (layer : t < (work.model j).length) (arrived : (groups j t).arrived ≠ []) :
    (groups j t).turn < work.nIter j :=
  (pipe.consistent.represents j t layer).turnsLeft arrived

end Pipelined

/-- A worker that has torn a job down has no enqueue and no allreduce left. -/
def Retired (work : Workload) (c : Clients) : Prop :=
  ∀ w j, c.finished w j = true → w ∈ work.widsAllocated j ∧ ∀ t < (work.model j).length,
    c.enqueued ⟨w,j,t⟩ = work.nIter j ∧ work.nIter j ≤ (c.tensor ⟨w,j,t⟩).iter

namespace Retired
variable {work : Workload} {c : Clients}

theorem enqueue (retired : Retired work c) (may : c.MayEnqueue work r) :
    Retired work (c.enqueue r) := by
  intro w j done
  obtain ⟨worker,all⟩ := retired w j done
  refine ⟨worker,fun t layer => ⟨?_,(all t layer).2⟩⟩
  have other : (⟨w,j,t⟩ : TensorRef) ≠ r := by
    rintro rfl
    exact absurd (all t layer).1 may.2.2.1.ne
  simpa [Clients.enqueue,other] using (all t layer).1

theorem answer (retired : Retired work c) (pipe : Pipelined work chunkSize groups early c)
    (called : call ∈ c.calls) : Retired work (c.answer chunkSize call) := by
  obtain ⟨j,t,w,chunks,waiter,outstanding,layer,phase,member,rfl,_⟩ := pipe.answer called
  intro v i done
  obtain ⟨worker,all⟩ := retired v i done
  refine ⟨worker,fun k inside => ⟨(all k inside).1,?_⟩⟩
  have rep := pipe.consistent.represents j t layer
  obtain ⟨_,_,within⟩ := rep.wellFormed.reducing _ _ _ phase
  have arrived := within member
  have other : (⟨v,i,k⟩ : TensorRef) ≠ ⟨w,j,t⟩ := by
    rintro ⟨⟩
    have iter : (c.tensor ⟨w,j,t⟩).iter = _ := rep.iter w (rep.wellFormed.inside arrived)
    have left := pipe.turnsLeft_of_arrived layer (List.ne_nil_of_mem arrived)
    have most := (all t layer).2
    simp only [Group.ended,phase,member,not_true,and_false,decide_false,Bool.toNat_false] at iter
    omega
  simpa [other] using (all k inside).2

theorem finish (retired : Retired work c) (may : c.MayFinish work w j) :
    Retired work (c.finish w j) := by
  intro v i done
  by_cases here : v = w ∧ i = j
  · obtain ⟨rfl,rfl⟩ := here
    exact ⟨may.1,may.2.2⟩
  · simp only [Clients.finish,if_neg here] at done
    exact retired v i done

/-- The workers of a group that is not over have not torn the job down. -/
theorem unfinished (retired : Retired work c) (pipe : Pipelined work chunkSize groups early c)
    (layer : t < (work.model j).length) (worker : w ∈ work.widsAllocated j)
    (some : (groups j t).arrived ≠ [])
    (working : (groups j t).ended chunkSize (work.size j t) w = false) :
    c.finished w j = false := by
  by_contra done
  obtain ⟨_,all⟩ := retired w j (by simpa using done)
  have iter : (c.tensor ⟨w,j,t⟩).iter = _ :=
    (pipe.consistent.represents j t layer).iter w worker
  have left := pipe.turnsLeft_of_arrived layer some
  have most := (all t layer).2
  rw [working,Bool.toNat_false] at iter
  omega

end Retired
end CloudSim
