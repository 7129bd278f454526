import CloudSim.Runs
import CloudSim.Table

/-! A server coroutine that is started when there is work for it, and the flag that its clients
read to know whether to start it. -/
namespace CloudSim

/-- Where a server is suspended: in the `all_of` of a round, or in the `timeout(0)` between its last
emptiness check and the reset of the flag. -/
inductive Position (A : Type) where
  | reducing (rest : A)
  | leaving

def Position.isLeaving : Position A → Bool
  | .leaving => true
  | .reducing _ => false

structure ServerLoop (A : Type) where
  instances : Table Nat (Position A) := default
  coroutines : Nat := 0
  loopIsRunning : Bool := true

namespace ServerLoop

def begin (l : ServerLoop A) (position : Position A) : ServerLoop A where
  instances := l.instances.put l.coroutines position
  coroutines := l.coroutines + 1
  loopIsRunning := true

def suspend (l : ServerLoop A) (id : Nat) (position : Position A) : ServerLoop A :=
  { l with instances := l.instances.put id position }

def finish (l : ServerLoop A) (id : Nat) : ServerLoop A :=
  { l with instances := l.instances.erase id, loopIsRunning := false }

/-- The instance that `main` starts finds nothing to do. -/
def initial : ServerLoop A := begin {} .leaving

/-- Some instance will reset the flag without another look at the queues. -/
def Leaving (l : ServerLoop A) : Prop :=
  ∃ id < l.coroutines, (l.instances id).any Position.isLeaving = true

instance (l : ServerLoop A) : Decidable l.Leaving :=
  have (id : Nat) : Decidable ((l.instances id).any Position.isLeaving = true) := inferInstance
  inferInstanceAs (Decidable (∃ id < l.coroutines, (l.instances id).any Position.isLeaving = true))

/-- The flag tells whether there is an instance, and there is at most one. -/
structure WellFormed (l : ServerLoop A) : Prop where
  single : ∀ id other position position', l.instances id = some position →
    l.instances other = some position' → id = other
  running : l.loopIsRunning = true ↔ ∃ id position, l.instances id = some position
  fresh : ∀ id position, l.instances id = some position → id < l.coroutines

/-- While there is work, some instance will look at the queues again. -/
def Awake (l : ServerLoop A) (busy : Prop) : Prop :=
  busy → ∃ id rest, l.instances id = some (.reducing rest)

/-- How a step of the system that owns the loop changes the loop and whether there is work;
`arrives` says that the step brings new work. An instance goes on to its last `timeout(0)` only
if it finds no work. -/
inductive Move (l : ServerLoop A) (busy arrives : Prop) : ServerLoop A → Prop → Prop where
  | quiet (less : later → busy) : Move l busy arrives l later
  | arrive (new : arrives) (running : l.loopIsRunning = true) : Move l busy arrives l later
  | begin (stopped : l.loopIsRunning = false) (checked : position = .leaving → ¬later) :
    Move l busy arrives (l.begin position) later
  | suspend {id : Nat} (known : l.instances id = some old) (checked : position = .leaving → ¬later) :
    Move l busy arrives (l.suspend id position) later
  | finish {id : Nat} (known : l.instances id = some .leaving) (less : later → busy) :
    Move l busy arrives (l.finish id) later

variable {l : ServerLoop A} {id : Nat} {position : Position A} {busy later : Prop}

theorem WellFormed.begin (wellFormed : l.WellFormed) (stopped : l.loopIsRunning = false) :
    (l.begin position).WellFormed := by
  have none (other : Nat) (position') : l.instances other ≠ some position' := fun known =>
    Bool.false_ne_true (stopped.symm.trans (wellFormed.running.mpr ⟨other,position',known⟩))
  have only {other : Nat} {position'} (known : (l.begin position).instances other = some position') :
      other = l.coroutines := by
    by_contra differ
    simp only [ServerLoop.begin,Table.put_other _ differ] at known
    exact none other position' known
  refine ⟨fun _ _ _ _ known also => (only known).trans (only also).symm,?_,fun other _ known => ?_⟩
  · exact ⟨fun _ => ⟨l.coroutines,position,by simp [ServerLoop.begin]⟩,fun _ => rfl⟩
  · rw [only known]
    exact Nat.lt_succ_self _

theorem initial_wellFormed : (initial : ServerLoop A).WellFormed := by
  have known {id : Nat} {position} (known : (initial : ServerLoop A).instances id = some position) :
      id = 0 := by
    by_contra other
    simp only [initial,begin,Table.put_other _ other] at known
    cases known
  refine ⟨fun _ _ _ _ first second => (known first).trans (known second).symm,?_,fun _ _ found => ?_⟩
  · exact ⟨fun _ => ⟨0,.leaving,by simp [initial,begin]⟩,fun _ => rfl⟩
  · rw [known found]
    exact Nat.zero_lt_one

theorem WellFormed.suspend (wellFormed : l.WellFormed) {old : Position A}
    (known : l.instances id = some old) : (l.suspend id position).WellFormed := by
  have only {other : Nat} {position'}
      (found : (l.suspend id position).instances other = some position') : other = id := by
    by_contra differ
    simp only [ServerLoop.suspend,Table.put_other _ differ] at found
    exact differ (wellFormed.single _ _ _ _ found known)
  refine ⟨fun _ _ _ _ first second => (only first).trans (only second).symm,?_,fun _ _ found => ?_⟩
  · exact ⟨fun _ => ⟨id,position,by simp [ServerLoop.suspend]⟩,
      fun _ => wellFormed.running.mpr ⟨id,old,known⟩⟩
  · rw [only found]
    exact wellFormed.fresh id old known

theorem WellFormed.finish (wellFormed : l.WellFormed) {old : Position A}
    (known : l.instances id = some old) : (l.finish id).WellFormed := by
  have none (other : Nat) (position') : (l.finish id).instances other ≠ some position' := by
    intro found
    by_cases same : other = id
    · simp [ServerLoop.finish,same] at found
    · simp only [ServerLoop.finish,Table.erase_other _ same] at found
      exact same (wellFormed.single _ _ _ _ found known)
  exact ⟨fun _ _ _ _ found => absurd found (none _ _),
    ⟨(fun running => by cases running),fun ⟨_,_,found⟩ => absurd found (none _ _)⟩,
    fun _ _ found => absurd found (none _ _)⟩

theorem awake_of_not_leaving (wellFormed : l.WellFormed) (running : l.loopIsRunning = true)
    (staying : ¬l.Leaving) : l.Awake busy := by
  intro _
  obtain ⟨id,position,known⟩ := wellFormed.running.mp running
  cases position with
  | reducing rest => exact ⟨id,rest,known⟩
  | leaving => exact absurd ⟨id,wellFormed.fresh _ _ known,by simp [known,Position.isLeaving]⟩ staying

theorem Move.wellFormed {arrives : Prop} {m : ServerLoop A} (move : Move l busy arrives m later)
    (wellFormed : l.WellFormed) : m.WellFormed := by
  cases move with
  | quiet less => exact wellFormed
  | arrive new running => exact wellFormed
  | begin stopped checked => exact wellFormed.begin stopped
  | suspend known checked => exact wellFormed.suspend known
  | finish known less => exact wellFormed.finish known

theorem Move.awake {arrives : Prop} {m : ServerLoop A} (move : Move l busy arrives m later)
    (wellFormed : l.WellFormed) (awake : l.Awake busy) (timely : arrives → ¬l.Leaving) :
    m.Awake later := by
  intro work
  cases move with
  | quiet less => exact awake (less work)
  | arrive new running => exact awake_of_not_leaving wellFormed running (timely new) work
  | begin stopped checked =>
    rename_i position
    cases position with
    | reducing rest => exact ⟨l.coroutines,rest,by simp [ServerLoop.begin]⟩
    | leaving => exact absurd work (checked rfl)
  | suspend known checked =>
    rename_i old position id
    cases position with
    | reducing rest => exact ⟨id,rest,by simp [ServerLoop.suspend]⟩
    | leaving => exact absurd work (checked rfl)
  | finish known less =>
    -- the instance that ends found no work, and no other could still be looking
    obtain ⟨other,rest,found⟩ := awake (less work)
    cases wellFormed.single _ _ _ _ known found
    rw [known] at found
    cases found

/-- At most one instance runs; while there is work, an instance will look at it again; and no work
is left when the flag is reset. -/
structure Attends (l : ServerLoop A) (busy : Prop) : Prop where
  single : ∀ id other position position', l.instances id = some position →
    l.instances other = some position' → id = other
  awake : l.Awake busy
  stopped : l.loopIsRunning = false → ¬busy

theorem WellFormed.attends (wellFormed : l.WellFormed) (awake : l.Awake busy) :
    l.Attends busy := by
  refine ⟨wellFormed.single,awake,fun stopped work => ?_⟩
  obtain ⟨id,rest,known⟩ := awake work
  exact Bool.false_ne_true (stopped.symm.trans (wellFormed.running.mpr ⟨id,_,known⟩))

section runs
variable {L S : Type} {step : L → S → Option S} (loop : S → ServerLoop A) (busy : S → Prop)
  (arrives : L → S → Prop)
  (moves : ∀ l s t, step l s = some t → (loop s).Move (busy s) (arrives l s) (loop t) (busy t))
include moves

theorem wellFormed_of_run {ok : L → S → Prop} {s t : S} (started : (loop s).WellFormed)
    (run : Runs.Run step ok s t) : (loop t).WellFormed := by
  have preserved (l : L) (s t : S) (wellFormed : (loop s).WellFormed) (_ : ok l s)
      (taken : step l s = some t) : (loop t).WellFormed := (moves l s t taken).wellFormed wellFormed
  have wellFormed := run.invariant preserved started
  exact wellFormed

/-- In a run in which no work arrives while an instance is leaving, all work is seen. -/
theorem attends_of_run {s t : S} (started : (loop s).WellFormed) (idle : ¬busy s)
    (run : Runs.Run step (fun l s => arrives l s → ¬(loop s).Leaving) s t) :
    (loop t).Attends (busy t) := by
  have preserved (l : L) (s t : S) (inv : (loop s).WellFormed ∧ (loop s).Awake (busy s))
      (timely : arrives l s → ¬(loop s).Leaving) (taken : step l s = some t) :
      (loop t).WellFormed ∧ (loop t).Awake (busy t) :=
    have move := moves l s t taken
    ⟨move.wellFormed inv.1,move.awake inv.1 inv.2 timely⟩
  obtain ⟨wellFormed,awake⟩ := run.invariant preserved ⟨started,fun work => absurd work idle⟩
  exact wellFormed.attends awake

end runs

end ServerLoop
end CloudSim
