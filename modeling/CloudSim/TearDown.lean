import CloudSim.ByteSchedulerLossless
import CloudSim.ReadyAndGoLossless

/-! What the suspended coroutines of a scheduler hold when the workers of a job tear it down
one by one. -/
namespace CloudSim

def Clients.Spent (work : Workload) (c : Clients) : Prop :=
  ∀ w j, c.finished w j = true → ∀ t < (work.model j).length,
    c.enqueued ⟨w,j,t⟩ = work.nIter j

namespace Clients
variable {work : Workload} {c : Clients}

theorem Spent.unfinished (spent : c.Spent work) {r : TensorRef} (may : c.MayEnqueue work r) :
    c.finished r.machine r.job = false := by
  by_contra finished
  exact may.2.2.1.ne (spent _ _ (Bool.not_eq_false _ ▸ finished) r.tensorId may.1.2)

theorem Spent.enqueue (spent : c.Spent work) {r : TensorRef} (may : c.MayEnqueue work r) :
    (c.enqueue r).Spent work := by
  intro w j finished t layer
  have other : (⟨w,j,t⟩ : TensorRef) ≠ r := by
    rintro rfl
    exact Bool.false_ne_true ((spent.unfinished may).symm.trans finished)
  simpa [Clients.enqueue,other] using spent w j finished t layer

theorem Spent.finish (spent : c.Spent work) (may : c.MayFinish work w j) :
    (c.finish w j).Spent work := by
  intro v i finished t layer
  by_cases here : v = w ∧ i = j
  · obtain ⟨rfl,rfl⟩ := here
    exact (may.2.2 t layer).1
  · exact spent v i (by simpa [Clients.finish,here] using finished) t layer

end Clients

namespace ByteScheduler
variable {cfg : Config} {work : Workload} {s : ByteScheduler}

/-- No worker tears a job down while the job's `kick_off` is suspended. -/
def Parted : Label → ByteScheduler → Prop
  | .finish _ j,s => ∀ id < s.coroutines, s.loops id ≠ some j
  | _,_ => True

instance (l : Label) (s : ByteScheduler) : Decidable (Parted l s) :=
  match l with
  | .finish _ j =>
    have (id : Nat) : Decidable (s.loops id ≠ some j) := inferInstance
    inferInstanceAs (Decidable (∀ id < s.coroutines, s.loops id ≠ some j))
  | .enqueue _ | .complete _ | .resume _ => isTrue trivial

structure Held (work : Workload) (s : ByteScheduler) : Prop where
  spent : s.clients.Spent work
  fresh : ∀ id j, s.loops id = some j → id < s.coroutines
  ready : ∀ id j, s.loops id = some j → s.readyQueue j ≠ none
  owners : ∀ j, ∀ r ∈ s.readyQueue.get j, r.job = j ∧ s.clients.finished r.machine r.job = false

theorem Held.kickOff {id : Nat} (held : Held work s) (ready : s.readyQueue j ≠ none)
    (known : id < s.coroutines) : Held work (s.kickOff cfg j id) := by
  have kept := kickOff_kept cfg s j id
  refine ⟨?_,fun other i found => ?_,fun other i found => ?_,fun i r member => ?_⟩
  · simpa only [Clients.Spent,kept.enqueued,kept.finished] using held.spent
  · rw [kept.coroutines]
    rcases kept.loops other i found with ⟨rfl,_⟩ | old
    · exact known
    · exact held.fresh other i old
  · rcases kept.loops other i found with ⟨_,rfl⟩ | old
    · exact kept.ready i ready
    · exact kept.ready i (held.ready other i old)
  · rw [kept.finished]
    exact held.owners i r (kept.members i r member)

theorem Held.enqueue (held : Held work s) {r : TensorRef} (may : s.clients.MayEnqueue work r) :
    Held work (s.enqueue cfg work r) := by
  have pushed : Held work (s.push cfg r) :=
    ⟨held.spent.enqueue may,held.fresh,held.ready,held.owners⟩
  have readied : Held work ((s.push cfg r).ready r) := by
    refine ⟨pushed.spent,held.fresh,fun id i known => ?_,fun i k member => ?_⟩
    · by_cases here : i = r.job
      · simp [ByteScheduler.ready,here]
      · simpa [ByteScheduler.ready,push,here] using held.ready id i known
    · by_cases here : i = r.job
      · subst here
        simp only [ByteScheduler.ready,Table.get_put_same] at member
        rcases Heap.mem_push _ |>.mp member with rfl | old
        · exact ⟨rfl,held.spent.unfinished may⟩
        · exact pushed.owners r.job k old
      · simp only [ByteScheduler.ready,Table.get_put_other _ here] at member
        exact pushed.owners i k member
  unfold ByteScheduler.enqueue
  dsimp only
  split
  · split
    · exact readied
    · refine Held.kickOff ⟨readied.spent,fun id i known => ?_,readied.ready,readied.owners⟩
        (by simp [ByteScheduler.ready]) (Nat.lt_succ_self _)
      exact Nat.lt_succ_of_lt (readied.fresh id i known)
  · exact pushed

theorem Held.finish (held : Held work s) (may : s.clients.MayFinish work w j)
    (parted : ∀ id < s.coroutines, s.loops id ≠ some j) :
    Held work ({ s with clients := s.clients.finish w j }.cleanupForJob j) := by
  refine ⟨held.spent.finish may,held.fresh,fun id i known => ?_,fun i r member => ?_⟩
  · have other : i ≠ j := by
      rintro rfl
      exact parted id (held.fresh id i known) known
    simpa [cleanupForJob,other] using held.ready id i known
  · by_cases here : i = j
    · subst here
      rw [show (cleanupForJob _ i).readyQueue.get i = [] from Table.get_erase_same _ _] at member
      cases member
    · simp only [cleanupForJob,Table.get_erase_other _ here] at member
      obtain ⟨ofJob,unfinished⟩ := held.owners i r member
      exact ⟨ofJob,by simpa [cleanupForJob,Clients.finish,ofJob,here] using unfinished⟩

theorem step_held (l : Label) (s t : ByteScheduler) (held : Held work s) (parted : Parted l s)
    (taken : step cfg work l s = some t) : Held work t := by
  cases l with
  | enqueue r =>
    simp only [step] at taken
    split at taken
    · rename_i may; cases taken; exact held.enqueue may
    · cases taken
  | complete call =>
    obtain ⟨clients,completed,taken⟩ := Option.bind_eq_some_iff.mp taken
    obtain ⟨_,rfl⟩ := Clients.complete_some completed
    cases taken
    exact ⟨held.spent,held.fresh,held.ready,held.owners⟩
  | resume id =>
    obtain ⟨j,known,taken⟩ := Option.bind_eq_some_iff.mp taken
    split at taken
    · cases taken; exact held.kickOff (held.ready id j known) (held.fresh id j known)
    · cases taken
  | finish w j =>
    simp only [step] at taken
    split at taken
    · rename_i may; cases taken; exact held.finish may parted
    · cases taken

theorem Held.readable {id : Nat} (held : Held work s) (due : s.Due id j) : s.Readable j :=
  ⟨held.ready id j due.1,fun r top => (held.owners j r (List.mem_of_mem_head? top)).2⟩

/-- In every run in which no worker tears a job down while its loop is suspended. -/
theorem readable_of_parted (cfg : Config) (work : Workload) (s : ByteScheduler)
    (run : Runs.Run (step cfg work) Parted (initial work) s) {id j : Nat} (due : s.Due id j) :
    s.Readable j := by
  have start : Held work (initial work) :=
    ⟨(fun _ _ finished => by cases finished),(fun _ _ known => by cases known),
      (fun _ _ known => by cases known),fun _ _ member => by cases member⟩
  exact (run.invariant step_held start).readable due

end ByteScheduler

namespace ReadyAndGo
variable {cfg : Config} {work : Workload} {s : ReadyAndGo}

/-- No worker tears a job down while a suspended call holds one of its tensors. -/
def Parted : Label → ReadyAndGo → Prop
  | .finish w j,s => ∀ id < s.coroutines, ∀ e ∈ s.enqueues id,
      ¬(e.entry.tensor.machine = w ∧ e.entry.tensor.job = j)
  | _,_ => True

instance (l : Label) (s : ReadyAndGo) : Decidable (Parted l s) :=
  match l with
  | .finish w j =>
    have (id : Nat) : Decidable (∀ e ∈ s.enqueues id,
        ¬(e.entry.tensor.machine = w ∧ e.entry.tensor.job = j)) := inferInstance
    inferInstanceAs (Decidable (∀ id < s.coroutines, ∀ e ∈ s.enqueues id,
      ¬(e.entry.tensor.machine = w ∧ e.entry.tensor.job = j)))
  | .enqueue _ | .start _ | .complete _ | .resume _ => isTrue trivial

structure Held (work : Workload) (s : ReadyAndGo) : Prop where
  spent : s.clients.Spent work
  fresh : ∀ id e, s.enqueues id = some e → id < s.coroutines
  owners : ∀ id e, s.enqueues id = some e →
    s.clients.finished e.entry.tensor.machine e.entry.tensor.job = false

theorem Held.enqueue (held : Held work s) {r : TensorRef} (may : s.clients.MayEnqueue work r) :
    Held work (s.enqueue cfg work r) := by
  have spent := held.spent.enqueue may
  have pushed : Held work (s.push cfg r) := ⟨spent,held.fresh,held.owners⟩
  unfold ReadyAndGo.enqueue
  dsimp only
  split
  · refine ⟨spent,fun id e known => ?_,fun id e known => ?_⟩
    all_goals
      obtain ⟨f,found,entry⟩ := setStage_entry known
      by_cases new : id = s.coroutines
    · exact new ▸ Nat.lt_succ_self _
    · exact Nat.lt_succ_of_lt (held.fresh id f (by simpa [push,new] using found))
    · obtain rfl : f = ⟨s.clients.nextEntry r,.requested⟩ := by
        simpa [push,new,eq_comm] using found
      rw [← entry]
      exact held.spent.unfinished may
    · rw [← entry]
      exact held.owners id f (by simpa [push,new] using found)
  · exact pushed

theorem step_held (l : Label) (s t : ReadyAndGo) (held : Held work s) (parted : Parted l s)
    (taken : step cfg work l s = some t) : Held work t := by
  cases l with
  | enqueue r =>
    simp only [step] at taken
    split at taken
    · rename_i may; cases taken; exact held.enqueue may
    · cases taken
  | start id =>
    obtain ⟨e,known,taken⟩ := Option.bind_eq_some_iff.mp taken
    split at taken
    · cases taken
      refine ⟨held.spent,fun other f also => ?_,fun other f also => ?_⟩
      all_goals obtain ⟨g,found,entry⟩ := setStage_entry also
      · exact held.fresh other g found
      · exact entry ▸ held.owners other g found
    · cases taken
  | complete call =>
    obtain ⟨clients,completed,taken⟩ := Option.bind_eq_some_iff.mp taken
    obtain ⟨_,rfl⟩ := Clients.complete_some completed
    cases taken
    exact ⟨held.spent,held.fresh,held.owners⟩
  | resume id =>
    obtain ⟨e,known,taken⟩ := Option.bind_eq_some_iff.mp taken
    split at taken
    · cases taken
      have kept (other : Nat) (f : Enqueue) (also : (s.resume cfg id e).enqueues other = some f) :
          ∃ g, s.enqueues other = some g ∧ g.entry = f.entry := by
        obtain ⟨g,found,entry⟩ := setStage_entry also
        by_cases this : other = id
        · simp [this] at found
        · exact ⟨g,by simpa [this] using found,entry⟩
      refine ⟨held.spent,fun other f also => ?_,fun other f also => ?_⟩
      all_goals obtain ⟨g,found,entry⟩ := kept other f also
      · exact held.fresh other g found
      · exact entry ▸ held.owners other g found
    · cases taken
  | finish w j =>
    simp only [step] at taken
    split at taken
    · rename_i may
      cases taken
      refine ⟨held.spent.finish may,held.fresh,fun id e known => ?_⟩
      have other := parted id (held.fresh id e known) e known
      exact (if_neg other).trans (held.owners id e known)
    · cases taken

/-- In every run in which no worker tears a job down while a suspended call holds one of its
tensors. -/
theorem readable_of_parted (cfg : Config) (work : Workload) (s : ReadyAndGo)
    (run : Runs.Run (step cfg work) Parted (initial work) s) {id : Nat} {e : Enqueue}
    (due : s.Due id e) : s.Readable e := by
  have start : Held work (initial work) :=
    ⟨(fun _ _ finished => by cases finished),(fun _ _ known => by cases known),
      fun _ _ known => by cases known⟩
  exact (run.invariant step_held start).owners id e due.1

end ReadyAndGo

/-- What the coroutines of the two schedulers read when `all_of` triggers has not been deleted. -/
theorem resumption_reads_live_objects (cfg : Config) (work : Workload) :
    (∀ s, Runs.Run (ByteScheduler.step cfg work) ByteScheduler.Parted
        (ByteScheduler.initial work) s → ∀ id j, s.Due id j → s.Readable j) ∧
    (∀ s, Runs.Run (ReadyAndGo.step cfg work) ReadyAndGo.Parted
        (ReadyAndGo.initial work) s → ∀ id e, s.Due id e → s.Readable e) :=
  ⟨fun s run _ _ => ByteScheduler.readable_of_parted cfg work s run,
    fun s run _ _ => ReadyAndGo.readable_of_parted cfg work s run⟩

/-- Both passes, up to the answer of the faster worker in the last round. -/
def ByteScheduler.lastRound : List ByteScheduler.Label :=
  firstPass ++ [.complete ⟨0,⟨⟨1,0,0⟩,0⟩⟩,.resume 0,.enqueue ⟨1,0,0⟩,.enqueue ⟨0,0,0⟩,
    .complete ⟨1,⟨⟨0,0,0⟩,1⟩⟩,.complete ⟨1,⟨⟨1,0,0⟩,1⟩⟩,.resume 1,.complete ⟨1,⟨⟨0,0,0⟩,1⟩⟩]

/-- Both passes, up to the answer of the faster worker; the second is the call of worker 0. -/
def ReadyAndGo.lastRound : List ReadyAndGo.Label :=
  firstPass ++ [.complete ⟨0,⟨⟨1,0,0⟩,0⟩⟩,.resume 0,.enqueue ⟨1,0,0⟩,.enqueue ⟨0,0,0⟩,
    .start 1,.complete ⟨1,⟨⟨0,0,0⟩,1⟩⟩]

theorem resumption_reads_live_objects_last_round :
    (∃ s : ByteScheduler, s.Due 1 0 ∧ s.Readable 0) ∧
    ∃ s : ReadyAndGo, ∃ e, s.Due 1 e ∧ s.Readable e := by
  have loop : (Runs.exec (ByteScheduler.step oneLayerConfig oneLayer) ByteScheduler.Parted
      (ByteScheduler.lastRound ++ [.complete ⟨1,⟨⟨1,0,0⟩,1⟩⟩]) (ByteScheduler.initial oneLayer)).map
      (fun s => (s.loops 1,s.clients.awaits 1)) = some (some 0,false) := by decide
  have call : (Runs.exec (ReadyAndGo.step oneLayerConfig oneLayer) ReadyAndGo.Parted
      (ReadyAndGo.lastRound ++ [.complete ⟨1,⟨⟨1,0,0⟩,1⟩⟩]) (ReadyAndGo.initial oneLayer)).map
      (fun s => (s.enqueues 1,s.clients.awaits 1)) =
      some (some ⟨⟨⟨0,0,0⟩,1⟩,.reducing⟩,false) := by decide
  obtain ⟨live,alive⟩ := resumption_reads_live_objects oneLayerConfig oneLayer
  constructor
  · obtain ⟨s,run,view⟩ := Runs.exists_run_of_exec loop
    have due : s.Due 1 0 := Prod.mk.inj view
    exact ⟨s,due,live s run 1 0 due⟩
  · obtain ⟨s,run,view⟩ := Runs.exists_run_of_exec call
    obtain ⟨known,quiet⟩ := Prod.mk.inj view
    exact ⟨s,_,⟨known,rfl,quiet⟩,alive s run 1 _ ⟨known,rfl,quiet⟩⟩

/-- The faster worker tears the job down while the coroutine waits for the slower one. -/
theorem tear_down_leaves_dangling_coroutines :
    (∃ s, Runs.Run (ByteScheduler.step oneLayerConfig oneLayer) Runs.anyStep
      (ByteScheduler.initial oneLayer) s ∧ s.Due 1 0 ∧ ¬s.Readable 0) ∧
    ∃ s, Runs.Run (ReadyAndGo.step oneLayerConfig oneLayer) Runs.anyStep
      (ReadyAndGo.initial oneLayer) s ∧ ∃ e, s.Due 1 e ∧ ¬s.Readable e := by
  have loop : (Runs.exec (ByteScheduler.step oneLayerConfig oneLayer) Runs.anyStep
      (ByteScheduler.lastRound ++ [.finish 0 0,.complete ⟨1,⟨⟨1,0,0⟩,1⟩⟩])
      (ByteScheduler.initial oneLayer)).map
      (fun s => (s.loops 1,s.clients.awaits 1,s.readyQueue 0)) = some (some 0,false,none) := by
    decide
  have call : (Runs.exec (ReadyAndGo.step oneLayerConfig oneLayer) Runs.anyStep
      (ReadyAndGo.lastRound ++ [.finish 0 0,.complete ⟨1,⟨⟨1,0,0⟩,1⟩⟩])
      (ReadyAndGo.initial oneLayer)).map
      (fun s => (s.enqueues 1,s.clients.awaits 1,s.clients.finished 0 0)) =
      some (some ⟨⟨⟨0,0,0⟩,1⟩,.reducing⟩,false,true) := by decide
  constructor
  · obtain ⟨s,run,view⟩ := Runs.exists_run_of_exec loop
    simp only [Prod.mk.injEq] at view
    exact ⟨s,run,⟨view.1,view.2.1⟩,fun readable => readable.1 view.2.2⟩
  · obtain ⟨s,run,view⟩ := Runs.exists_run_of_exec call
    simp only [Prod.mk.injEq] at view
    exact ⟨s,run,_,⟨view.1,rfl,view.2.1⟩,fun readable =>
      Bool.false_ne_true (readable.symm.trans view.2.2)⟩

end CloudSim
