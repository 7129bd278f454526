import CloudSim.DeficitRoundRobin
import CloudSim.Sincronia

/-! Whether a loop of `DeficitRoundRobin` or `Sincronia` sees every group that becomes ready. -/
namespace CloudSim

namespace DeficitRoundRobin
variable {cfg : Config} {topo : Topology} {work : Workload} {s t : DeficitRoundRobin}

def Busy (s : DeficitRoundRobin) : Prop := s.readyPqueuesAllEmpty = false

def Arrives (cfg : Config) (work : Workload) : Label → DeficitRoundRobin → Prop
  | .enqueue r,s => (s.queue.get (r.key cfg)).length + 1 = work.numWorkersAllocated r.job
  | _,_ => False

instance (cfg : Config) (work : Workload) (l : Label) (s : DeficitRoundRobin) :
    Decidable (Arrives cfg work l s) :=
  match l with
  | .enqueue r => inferInstanceAs (Decidable
      ((s.queue.get (r.key cfg)).length + 1 = work.numWorkersAllocated r.job))
  | .complete _ | .resume _ | .finish _ _ => isFalse id

/-- No group becomes ready while the loop is in its last `timeout(0)`. -/
def Timely (cfg : Config) (work : Workload) (l : Label) (s : DeficitRoundRobin) : Prop :=
  Arrives cfg work l s → ¬s.loop.Leaving

instance (cfg : Config) (work : Workload) (l : Label) (s : DeficitRoundRobin) :
    Decidable (Timely cfg work l s) := inferInstanceAs (Decidable (_ → _))

theorem reduce_loop {id : Nat} {before after : DeficitRoundRobin × Table Nat Nat}
    (reduced : reduce cfg id before jobId = some after) : after.1.loop = before.1.loop := by
  obtain ⟨_,_,reduced⟩ := Option.bind_eq_some_iff.mp reduced
  obtain ⟨_,_,reduced⟩ := Option.bind_eq_some_iff.mp reduced
  obtain ⟨_,_,reduced⟩ := Option.bind_eq_some_iff.mp reduced
  dsimp only at reduced
  split at reduced
  · cases reduced
  · split at reduced
    · cases reduced; rfl
    · cases reduced; rfl

theorem serve_loop {id : Nat} (served : s.serve cfg topo work id i quantums = some after) :
    after.1.loop = s.loop := by
  obtain ⟨_,_,served⟩ := Option.bind_eq_some_iff.mp served
  obtain ⟨_,_,served⟩ := Option.bind_eq_some_iff.mp served
  have preserved (j : Nat) (before after : DeficitRoundRobin × Table Nat Nat)
      (same : before.1.loop = s.loop) (reduced : reduce cfg id before j = some after) :
      after.1.loop = s.loop := (reduce_loop reduced).trans same
  exact Runs.foldlM_invariant preserved served rfl

/-- Only a loop that found all queues empty goes on to its last `timeout(0)`. -/
theorem proceed_spec {id : Nat} (proceeded : s.proceed cfg topo work id i quantums = some after) :
    after.1.loop = s.loop ∧ (after.2 = .leaving → ¬after.1.Busy) := by
  unfold proceed at proceeded
  dsimp only at proceeded
  split at proceeded
  · rename_i nothing
    cases proceeded
    refine ⟨rfl,fun _ busy => ?_⟩
    rw [Busy] at busy
    rw [busy,Option.or_eq_none_iff] at nothing
    have none := List.findIdx?_eq_none_iff.mp (Option.map_eq_none_iff.mp nothing.2)
    rw [readyPqueuesAllEmpty,List.all_eq_false] at busy
    obtain ⟨entry,member,some⟩ := busy
    have empty := none entry (by simpa using member)
    simp at empty some
    exact some empty
  · obtain ⟨middle,served,proceeded⟩ := Option.bind_eq_some_iff.mp proceeded
    cases proceeded
    exact ⟨serve_loop served,fun leaving => by cases leaving⟩

theorem collectiveScheduler_spec (started : s.collectiveScheduler cfg topo work = some t) :
    ∃ position, t.loop = s.loop.begin position ∧ (position = .leaving → ¬t.Busy) := by
  obtain ⟨⟨middle,position⟩,proceeded,started⟩ := Option.bind_eq_some_iff.mp started
  cases started
  refine ⟨position,?_⟩
  split at proceeded
  · rename_i empty
    cases proceeded
    exact ⟨rfl,fun _ busy => Bool.false_ne_true (busy.symm.trans empty)⟩
  · obtain ⟨loop,checked⟩ := proceed_spec proceeded
    exact ⟨congrArg (ServerLoop.begin · position) loop,checked⟩

theorem busy_of_cleanup (busy : (s.cleanupForJob j).Busy) : s.Busy := by
  simp only [Busy,readyPqueuesAllEmpty,List.all_eq_false] at busy ⊢
  obtain ⟨entry,member,some⟩ := busy
  exact ⟨entry,List.mem_of_mem_filter member,some⟩

theorem enqueue_moves {r : TensorRef} (taken : s.enqueue cfg topo work r = some t) :
    s.loop.Move s.Busy (Arrives cfg work (.enqueue r) s) t.loop t.Busy := by
  unfold enqueue at taken
  dsimp only at taken
  split at taken
  · rename_i full
    split at taken
    · rename_i running
      cases taken
      exact .arrive (by simpa [Arrives,push] using full) running
    · rename_i stopped
      obtain ⟨position,loop,checked⟩ := collectiveScheduler_spec taken
      rw [loop]
      exact .begin (Bool.eq_false_iff.mpr stopped) checked
  · cases taken
    exact .quiet fun busy => busy

theorem step_moves (l : Label) (taken : step cfg topo work l s = some t) :
    s.loop.Move s.Busy (Arrives cfg work l s) t.loop t.Busy := by
  cases l with
  | enqueue r =>
    simp only [step] at taken
    split at taken
    · exact enqueue_moves taken
    · cases taken
  | complete call =>
    obtain ⟨clients,_,taken⟩ := Option.bind_eq_some_iff.mp taken
    cases taken
    exact .quiet fun busy => busy
  | resume id =>
    simp only [step] at taken
    split at taken
    · cases taken
    · rename_i known
      cases taken
      exact .finish known fun busy => busy
    · rename_i i quantums known
      split at taken
      · obtain ⟨⟨middle,position⟩,proceeded,taken⟩ := Option.bind_eq_some_iff.mp taken
        cases taken
        obtain ⟨loop,checked⟩ := proceed_spec proceeded
        dsimp only at loop ⊢
        rw [loop]
        exact .suspend known checked
      · cases taken
  | finish w j =>
    simp only [step] at taken
    split at taken
    · cases taken
      exact .quiet busy_of_cleanup
    · cases taken

theorem run_wellFormed (s : DeficitRoundRobin)
    (run : Runs.Run (step cfg topo work) Runs.anyStep (initial work) s) : s.loop.WellFormed :=
  ServerLoop.wellFormed_of_run DeficitRoundRobin.loop Busy (Arrives cfg work)
    (fun l _ _ taken => step_moves l taken) ServerLoop.initial_wellFormed run

theorem run_attends (s : DeficitRoundRobin)
    (run : Runs.Run (step cfg topo work) (Timely cfg work) (initial work) s) :
    s.loop.Attends s.Busy :=
  ServerLoop.attends_of_run DeficitRoundRobin.loop Busy (Arrives cfg work)
    (fun l _ _ taken => step_moves l taken) ServerLoop.initial_wellFormed
    (fun busy => by cases busy) run

end DeficitRoundRobin

namespace Sincronia
variable {cfg : Config} {topo : Topology} {work : Workload} {s t : Sincronia}

def Busy (s : Sincronia) : Prop := s.readyPqueuesAllEmpty = false

def Arrives (cfg : Config) (work : Workload) : Label → Sincronia → Prop
  | .enqueue r _,s => ((s.queue.get (r.key cfg)).length + 1) % work.numWorkersAllocated r.job = 0
  | _,_ => False

instance (cfg : Config) (work : Workload) (l : Label) (s : Sincronia) :
    Decidable (Arrives cfg work l s) :=
  match l with
  | .enqueue r _ => inferInstanceAs (Decidable
      (((s.queue.get (r.key cfg)).length + 1) % work.numWorkersAllocated r.job = 0))
  | .complete _ | .resume _ _ | .finish _ _ => isFalse id

/-- No tensor becomes ready while the loop is in its last `timeout(0)`. -/
def Timely (cfg : Config) (work : Workload) (l : Label) (s : Sincronia) : Prop :=
  Arrives cfg work l s → ¬s.loop.Leaving

instance (cfg : Config) (work : Workload) (l : Label) (s : Sincronia) :
    Decidable (Timely cfg work l s) := inferInstanceAs (Decidable (_ → _))

theorem reduce_loop {id : Nat} (reduced : reduce cfg id s key = some t) : t.loop = s.loop := by
  obtain ⟨_,_,reduced⟩ := Option.bind_eq_some_iff.mp reduced
  cases reduced
  rfl

theorem serve_loop {id : Nat} (served : s.serve cfg topo work id key result = some after) :
    after.1.loop = s.loop := by
  obtain ⟨_,_,served⟩ := Option.bind_eq_some_iff.mp served
  obtain ⟨_,_,served⟩ := Option.bind_eq_some_iff.mp served
  obtain ⟨middle,reduced,served⟩ := Option.bind_eq_some_iff.mp served
  cases served
  have preserved (key : Nat) (before after : Sincronia) (same : before.loop = s.loop)
      (reduced : reduce cfg id before key = some after) : after.loop = s.loop :=
    (reduce_loop reduced).trans same
  exact Runs.foldlM_invariant preserved reduced rfl

theorem cleanOut_loop {fuel : Nat} {pq : List TensorRef}
    (cleaned : cleanOut cfg work fuel s pq = some after) : after.1.loop = s.loop := by
  induction fuel generalizing s pq with
  | zero => cases cleaned; rfl
  | succ fuel ih =>
    simp only [cleanOut] at cleaned
    split at cleaned
    · cases cleaned; rfl
    · split at cleaned
      · split at cleaned
        · exact (ih cleaned).trans rfl
        · cases cleaned
      · cases cleaned; rfl

theorem collect_spec {pqueues : List (Nat × List TensorRef)}
    (collected : collect cfg work pqueues s = some after) :
    after.1.loop = s.loop ∧
      (after.2.2 = [] → ∀ entry ∈ after.2.1, entry.2 = []) := by
  induction pqueues generalizing s after with
  | nil => cases collected; exact ⟨rfl,fun _ _ member => by cases member⟩
  | cons first rest ih =>
    obtain ⟨⟨s',pq⟩,cleaned,collected⟩ := Option.bind_eq_some_iff.mp collected
    obtain ⟨middle,others,collected⟩ := Option.bind_eq_some_iff.mp collected
    cases collected
    obtain ⟨loop,emptied⟩ := ih others
    refine ⟨loop.trans (cleanOut_loop cleaned),fun none entry member => ?_⟩
    obtain ⟨top,weights⟩ := List.append_eq_nil_iff.mp none
    rcases List.mem_cons.mp member with rfl | member
    · exact List.head?_eq_none_iff.mp (by simpa [Heap.top] using top)
    · exact emptied weights entry member

theorem schedule_nil (scheduled : schedule cfg order weights = some []) : weights = [] := by
  unfold schedule at scheduled
  dsimp only at scheduled
  split at scheduled
  · exact List.map_eq_nil_iff.mp (Option.some.inj scheduled)
  · split at scheduled
    · rename_i perm
      rw [Option.some.inj scheduled] at perm
      exact List.map_eq_nil_iff.mp perm.nil_eq.symm
    · cases scheduled

theorem serveNext_spec {id : Nat} (served : s.serveNext cfg topo work id result = some after) :
    after.1.loop = s.loop ∧ (after.2 = .leaving → result = [] ∧ after.1 = s) := by
  cases result with
  | nil => cases served; exact ⟨rfl,fun _ => ⟨rfl,rfl⟩⟩
  | cons key rest =>
    obtain ⟨middle,inner,done⟩ := Option.bind_eq_some_iff.mp served
    cases done
    exact ⟨serve_loop inner,fun leaving => by cases leaving⟩

/-- Only a loop that found all queues empty goes on to its last `timeout(0)`. -/
theorem proceed_spec {id : Nat} (proceeded : s.proceed cfg topo work id order result = some after) :
    after.1.loop = s.loop ∧ (after.2 = .leaving → ¬after.1.Busy) := by
  unfold proceed at proceeded
  split at proceeded
  · rename_i more
    obtain ⟨loop,stops⟩ := serveNext_spec proceeded
    exact ⟨loop,fun leaving => absurd (stops leaving).1 more⟩
  · split at proceeded
    · rename_i empty
      cases proceeded
      exact ⟨rfl,fun _ busy => Bool.false_ne_true (busy.symm.trans empty)⟩
    · obtain ⟨⟨middle,pqueues,weights⟩,collected,proceeded⟩ := Option.bind_eq_some_iff.mp proceeded
      obtain ⟨keys,scheduled,proceeded⟩ := Option.bind_eq_some_iff.mp proceeded
      obtain ⟨loop,emptied⟩ := collect_spec collected
      obtain ⟨loop',stops⟩ := serveNext_spec proceeded
      refine ⟨loop'.trans loop,fun leaving busy => ?_⟩
      obtain ⟨rfl,same⟩ := stops leaving
      have none : weights = [] := schedule_nil scheduled
      simp only [same,Busy,readyPqueuesAllEmpty,List.all_eq_false] at busy
      obtain ⟨entry,member,some⟩ := busy
      exact some (by simp [emptied none entry member])

theorem busy_of_cleanup (busy : (s.cleanupForJob j).Busy) : s.Busy := by
  simp only [Busy,readyPqueuesAllEmpty,List.all_eq_false] at busy ⊢
  obtain ⟨entry,member,some⟩ := busy
  exact ⟨entry,List.mem_of_mem_filter member,some⟩

theorem enqueue_moves {r : TensorRef} {order : List Nat}
    (taken : s.enqueue cfg topo work order r = some t) :
    s.loop.Move s.Busy (Arrives cfg work (.enqueue r order) s) t.loop t.Busy := by
  unfold enqueue at taken
  dsimp only at taken
  split at taken
  · rename_i full
    split at taken
    · rename_i running
      cases taken
      exact .arrive (by simpa [Arrives,push] using full) running
    · rename_i stopped
      obtain ⟨⟨middle,position⟩,proceeded,taken⟩ := Option.bind_eq_some_iff.mp taken
      cases taken
      obtain ⟨loop,checked⟩ := proceed_spec proceeded
      dsimp only at loop ⊢
      rw [loop]
      exact .begin (Bool.eq_false_iff.mpr stopped) checked
  · cases taken
    exact .quiet fun busy => busy

theorem step_moves (l : Label) (taken : step cfg topo work l s = some t) :
    s.loop.Move s.Busy (Arrives cfg work l s) t.loop t.Busy := by
  cases l with
  | enqueue r order =>
    simp only [step] at taken
    split at taken
    · exact enqueue_moves taken
    · cases taken
  | complete call =>
    obtain ⟨clients,_,taken⟩ := Option.bind_eq_some_iff.mp taken
    cases taken
    exact .quiet fun busy => busy
  | resume id order =>
    simp only [step] at taken
    split at taken
    · cases taken
    · rename_i known
      cases taken
      exact .finish known fun busy => busy
    · rename_i result known
      split at taken
      · obtain ⟨⟨middle,position⟩,proceeded,taken⟩ := Option.bind_eq_some_iff.mp taken
        cases taken
        obtain ⟨loop,checked⟩ := proceed_spec proceeded
        dsimp only at loop ⊢
        rw [loop]
        exact .suspend known checked
      · cases taken
  | finish w j =>
    simp only [step] at taken
    split at taken
    · cases taken
      exact .quiet busy_of_cleanup
    · cases taken

theorem run_wellFormed (s : Sincronia)
    (run : Runs.Run (step cfg topo work) Runs.anyStep (initial work) s) : s.loop.WellFormed :=
  ServerLoop.wellFormed_of_run Sincronia.loop Busy (Arrives cfg work)
    (fun l _ _ taken => step_moves l taken) ServerLoop.initial_wellFormed run

theorem run_attends (s : Sincronia)
    (run : Runs.Run (step cfg topo work) (Timely cfg work) (initial work) s) :
    s.loop.Attends s.Busy :=
  ServerLoop.attends_of_run Sincronia.loop Busy (Arrives cfg work)
    (fun l _ _ taken => step_moves l taken) ServerLoop.initial_wellFormed
    (fun busy => by cases busy) run

end Sincronia

/-- No two instances of a loop run at once; and in every run in which nothing becomes ready while
the loop is in its last `timeout(0)`, an instance attends to every ready queue. -/
theorem no_lost_wake_up (cfg : Config) (topo : Topology) (work : Workload) :
    (∀ s, Runs.Run (DeficitRoundRobin.step cfg topo work) Runs.anyStep
      (DeficitRoundRobin.initial work) s → s.loop.WellFormed) ∧
    (∀ s, Runs.Run (DeficitRoundRobin.step cfg topo work) (DeficitRoundRobin.Timely cfg work)
      (DeficitRoundRobin.initial work) s → s.loop.Attends s.Busy) ∧
    (∀ s, Runs.Run (Sincronia.step cfg topo work) Runs.anyStep
      (Sincronia.initial work) s → s.loop.WellFormed) ∧
    (∀ s, Runs.Run (Sincronia.step cfg topo work) (Sincronia.Timely cfg work)
      (Sincronia.initial work) s → s.loop.Attends s.Busy) :=
  ⟨DeficitRoundRobin.run_wellFormed,DeficitRoundRobin.run_attends,Sincronia.run_wellFormed,
    Sincronia.run_attends⟩

/-- Both rounds of the first pass, after which the loop finds nothing to do. -/
def DeficitRoundRobin.firstPass : List DeficitRoundRobin.Label :=
  [.resume 0,.enqueue ⟨0,0,0⟩,.enqueue ⟨1,0,0⟩,
    .complete ⟨1,⟨⟨0,0,0⟩,0⟩⟩,.complete ⟨1,⟨⟨1,0,0⟩,0⟩⟩,.resume 1,
    .complete ⟨1,⟨⟨0,0,0⟩,0⟩⟩,.complete ⟨1,⟨⟨1,0,0⟩,0⟩⟩,.resume 1]

def Sincronia.firstPass : List Sincronia.Label :=
  [.resume 0 [],.enqueue ⟨0,0,0⟩ [],.enqueue ⟨1,0,0⟩ [],
    .complete ⟨1,⟨⟨0,0,0⟩,0⟩⟩,.complete ⟨1,⟨⟨1,0,0⟩,0⟩⟩,.resume 1 [],
    .complete ⟨1,⟨⟨0,0,0⟩,0⟩⟩,.complete ⟨1,⟨⟨1,0,0⟩,0⟩⟩,.resume 1 []]

/-- The flag is reset before the second group becomes ready, which starts a new instance. -/
theorem no_lost_wake_up_second_group :
    (∃ s : DeficitRoundRobin, s.Busy ∧ s.loop.Attends s.Busy) ∧
    ∃ s : Sincronia, s.Busy ∧ s.loop.Attends s.Busy := by
  have fair : (Runs.exec (DeficitRoundRobin.step oneLayerConfig .custom oneLayer)
      (DeficitRoundRobin.Timely oneLayerConfig oneLayer)
      (DeficitRoundRobin.firstPass ++ [.enqueue ⟨0,0,0⟩,.resume 1,.enqueue ⟨1,0,0⟩])
      (DeficitRoundRobin.initial oneLayer)).map (fun s => s.readyPqueuesAllEmpty) = some false := by
    decide
  have ordered : (Runs.exec (Sincronia.step oneLayerConfig .custom oneLayer)
      (Sincronia.Timely oneLayerConfig oneLayer)
      (Sincronia.firstPass ++ [.enqueue ⟨0,0,0⟩ [],.resume 1 [],.enqueue ⟨1,0,0⟩ []])
      (Sincronia.initial oneLayer)).map (fun s => s.readyPqueuesAllEmpty) = some false := by
    decide
  obtain ⟨_,attends,_,attended⟩ := no_lost_wake_up oneLayerConfig .custom oneLayer
  obtain ⟨s,run,busy⟩ := Runs.exists_run_of_exec fair
  obtain ⟨t,run',busy'⟩ := Runs.exists_run_of_exec ordered
  exact ⟨⟨s,busy,attends s run⟩,t,busy',attended t run'⟩

/-- The second group becomes ready between the last emptiness check and the reset of the flag. -/
theorem group_in_last_timeout_is_left_behind :
    (∃ s, Runs.Run (DeficitRoundRobin.step oneLayerConfig .custom oneLayer) Runs.anyStep
      (DeficitRoundRobin.initial oneLayer) s ∧ ¬s.loop.Attends s.Busy) ∧
    ∃ s, Runs.Run (Sincronia.step oneLayerConfig .custom oneLayer) Runs.anyStep
      (Sincronia.initial oneLayer) s ∧ ¬s.loop.Attends s.Busy := by
  have fair : (Runs.exec (DeficitRoundRobin.step oneLayerConfig .custom oneLayer) Runs.anyStep
      (DeficitRoundRobin.firstPass ++ [.enqueue ⟨0,0,0⟩,.enqueue ⟨1,0,0⟩,.resume 1])
      (DeficitRoundRobin.initial oneLayer)).map
      (fun s => (s.readyPqueuesAllEmpty,s.loop.loopIsRunning)) = some (false,false) := by
    decide
  have ordered : (Runs.exec (Sincronia.step oneLayerConfig .custom oneLayer) Runs.anyStep
      (Sincronia.firstPass ++ [.enqueue ⟨0,0,0⟩ [],.enqueue ⟨1,0,0⟩ [],.resume 1 []])
      (Sincronia.initial oneLayer)).map
      (fun s => (s.readyPqueuesAllEmpty,s.loop.loopIsRunning)) = some (false,false) := by
    decide
  obtain ⟨s,run,view⟩ := Runs.exists_run_of_exec fair
  obtain ⟨t,run',view'⟩ := Runs.exists_run_of_exec ordered
  obtain ⟨busy,stopped⟩ := Prod.mk.inj view
  obtain ⟨busy',stopped'⟩ := Prod.mk.inj view'
  exact ⟨⟨s,run,fun attends => attends.stopped stopped busy⟩,
    t,run',fun attends => attends.stopped stopped' busy'⟩

end CloudSim
