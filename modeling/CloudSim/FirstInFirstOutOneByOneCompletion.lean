import CloudSim.BackwardPass
import CloudSim.Descent
import CloudSim.FirstInFirstOutOneByOneExact

/-! `FirstInFirstOutOneByOne` starves nobody: when the workers enqueue in the order of their backward
passes, the steps come to an end, and they end only when all jobs with several workers have. -/
namespace CloudSim

/-- The steps that a call of `enqueue` has before it. -/
def Enqueue.left : Option Enqueue → Nat
  | none => 0
  | some ⟨_,.reducing⟩ => 1
  | some _ => 2

theorem Enqueue.left_le (e : Option Enqueue) : Enqueue.left e ≤ 2 := by
  unfold Enqueue.left
  split <;> decide

theorem Clients.exists_complete {c : Clients} (called : call ∈ c.calls) :
    ∃ first d, c.complete chunkSize first = some d := by
  have found : (c.calls.find? fun other => other.entry.tensor = call.entry.tensor).isSome = true :=
    List.find?_isSome.mpr ⟨call,called,decide_eq_true rfl⟩
  obtain ⟨first,earliest⟩ := Option.isSome_iff_exists.mp found
  have same : first.entry.tensor = call.entry.tensor := by
    simpa using List.find?_some earliest
  refine ⟨first,c.answer chunkSize first,?_⟩
  rw [Clients.complete,same]
  exact if_pos earliest

namespace FirstInFirstOutOneByOne

/-- The workers enqueue in the order of their backward passes. -/
def inOrder (work : Workload) : Label → FirstInFirstOutOneByOne → Prop
  | .enqueue r,s => s.clients.Reaches work r
  | _,_ => True

instance (work : Workload) (l : Label) (s : FirstInFirstOutOneByOne) : Decidable (inOrder work l s) :=
  match l with
  | .enqueue r => inferInstanceAs (Decidable (s.clients.Reaches work r))
  | .start _ => isTrue trivial
  | .complete _ => isTrue trivial
  | .resume _ => isTrue trivial
  | .finish _ _ => isTrue trivial

/-- Every job with several workers has ended, each of its enqueues was reduced once, by the
collective of its group, and the scheduler holds nothing. -/
structure Finished (cfg : Config) (work : Workload) (s : FirstInFirstOutOneByOne) : Prop where
  finished : ∀ w j, w ∈ work.widsAllocated j → 1 < work.numWorkersAllocated j →
    s.clients.finished w j = true
  served : ∀ r, work.Allocates r → 1 < work.numWorkersAllocated r.job →
    ∀ turn < work.nIter r.job, s.clients.served.count ⟨r,turn⟩ = 1 ∧
      (s.collectives.flatMap fun collective => collective.entries.map Prod.fst).count
        ⟨r,turn⟩ = 1
  queue : ∀ r, work.Allocates r → 1 < work.numWorkersAllocated r.job →
    s.queue.get (r.key cfg) = []
  calls : s.clients.calls = []
  lock : s.lock = {}
  enqueues : ∀ id, s.enqueues id = none
  order : s.completed = s.collectives.map Collective.opener

section measure
variable {s t : FirstInFirstOutOneByOne}

def callsLeft (s : FirstInFirstOutOneByOne) : Nat :=
  ((List.range s.coroutines).map fun id => Enqueue.left (s.enqueues id)).sum

def measure (work : Workload) (jobs : List Nat) (s : FirstInFirstOutOneByOne) : Nat × Nat × Nat :=
  (s.clients.left work jobs,s.callsLeft,s.clients.calls.length)

def Lower : Nat × Nat × Nat → Nat × Nat × Nat → Prop :=
  Prod.Lex (· < ·) (Prod.Lex (· < ·) (· < ·))

theorem lower_wf : WellFounded Lower :=
  WellFounded.prod_lex Nat.lt_wfRel.wf (WellFounded.prod_lex Nat.lt_wfRel.wf Nat.lt_wfRel.wf)

/-- The calls of the other coroutines have at most as many steps before them. -/
theorem callsLeft_lt {id : Nat} (coroutines : t.coroutines = s.coroutines)
    (known : id < s.coroutines) (others : ∀ other, other ≠ id →
      Enqueue.left (t.enqueues other) ≤ Enqueue.left (s.enqueues other))
    (less : Enqueue.left (t.enqueues id) < Enqueue.left (s.enqueues id)) :
    t.callsLeft < s.callsLeft := by
  unfold callsLeft
  rw [coroutines]
  refine List.sum_lt_sum _ _ (fun other _ => ?_) ⟨id,List.mem_range.mpr known,less⟩
  rcases eq_or_ne other id with rfl | differ
  · exact less.le
  · exact others other differ

end measure

section run
variable {cfg : Config} {work : Workload} {groups : Nat → Nat → Group}
  {early : Nat → Nat → List Nat} {line : List (Nat × Enqueue)} {s : FirstInFirstOutOneByOne}
  {jobs : List Nat}

theorem Sound.known_lt (sound : Sound cfg work groups early line s) {id : Nat} {e : Enqueue}
    (known : s.enqueues id = some e) : id < s.coroutines := by
  by_contra beyond
  rw [sound.fresh id (Nat.le_of_not_lt beyond)] at known
  cases known

theorem start_lower (sound : Sound cfg work groups early line s) {id : Nat} {e : Enqueue}
    (known : s.enqueues id = some e) (granted : e.stage = .granted) :
    (s.start cfg id e).callsLeft < s.callsLeft := by
  obtain ⟨entry,stage⟩ := e
  cases granted
  refine callsLeft_lt rfl (sound.known_lt known) (fun other differ => ?_) ?_
  · rw [start_enqueues cfg known,if_neg differ]
  · rw [start_enqueues cfg known,if_pos rfl,known]
    exact Nat.one_lt_two

/-- The call at the head of the line ends; the next one is granted the lock. -/
theorem resume_lower {rest : List (Nat × Enqueue)} {id : Nat} {e : Enqueue}
    (sound : Sound cfg work groups early ((id,e) :: rest) s) :
    (s.resume id).callsLeft < s.callsLeft := by
  have known := (sound.enqueues id e).mpr List.mem_cons_self
  have lookup := resume_enqueues sound.lock sound.enqueues sound.ids
  have absent : id ∉ rest.map Prod.fst := (List.nodup_cons.mp sound.ids).1
  refine callsLeft_lt rfl (sound.known_lt known) (fun other differ => ?_) ?_
  · cases after : (s.resume id).enqueues other with
    | none => exact Nat.zero_le _
    | some f =>
      -- whoever is left still waits, or was waiting for the lock that it now holds
      have member := (lookup other f).mp after
      have waits : other ∈ rest.map Prod.fst := by
        rw [← grant_ids rest]
        exact List.mem_map.mpr ⟨_,member,rfl⟩
      obtain ⟨⟨asked,was⟩,before,same⟩ := List.mem_map.mp waits
      obtain rfl : asked = other := same
      have stage := sound.tail _ before
      rw [(sound.enqueues asked was).mpr (List.mem_cons_of_mem _ before)]
      obtain ⟨entry,_⟩ := was
      cases stage
      exact Enqueue.left_le _
  · have gone : (s.resume id).enqueues id = none := by
      cases after : (s.resume id).enqueues id with
      | none => rfl
      | some f =>
        have member := (lookup id f).mp after
        exact absurd (grant_ids rest ▸ List.mem_map.mpr ⟨_,member,rfl⟩) absent
    rw [gone,known]
    obtain ⟨entry,stage⟩ := e
    cases stage <;> exact Nat.succ_pos _

/-- What holds in runs whose workers enqueue in the order of their backward passes. -/
structure Orderly (cfg : Config) (work : Workload) (s : FirstInFirstOutOneByOne) : Prop where
  inv : Inv cfg work s
  order : s.clients.InOrder work

theorem initial_orderly (cfg : Config) (work : Workload) : Orderly cfg work (initial work) :=
  ⟨initial_inv cfg work,Clients.InOrder.initial work⟩

theorem enqueue_clients (cfg : Config) (work : Workload) (s : FirstInFirstOutOneByOne)
    (r : TensorRef) : (s.enqueue cfg work r).clients = s.clients.enqueue r := by
  unfold enqueue
  dsimp only
  split <;> rfl

theorem step_lower (distinct : work.DistinctKeys cfg)
    (submitted : ∀ j, work.widsAllocated j ≠ [] → j ∈ jobs) (l : Label)
    (s t : FirstInFirstOutOneByOne) (orderly : Orderly cfg work s) (allowed : inOrder work l s)
    (taken : step cfg work l s = some t) :
    Orderly cfg work t ∧ Lower (measure work jobs t) (measure work jobs s) := by
  have inv := step_inv distinct l s t orderly.inv taken
  obtain ⟨⟨groups,early,line,sound,_⟩,order⟩ := orderly
  cases l with
  | enqueue r =>
    simp only [step] at taken
    split at taken
    · rename_i may
      cases taken
      have enqueued := enqueue_clients cfg work s r
      have reduced (t : Nat) (inside : t < (work.model r.job).length) :=
        sound.pipelined.iter_le_enqueued inside may.1.1
      refine ⟨⟨inv,enqueued ▸ order.enqueue may allowed reduced⟩,Prod.Lex.left _ _ ?_⟩
      rw [enqueued]
      exact Clients.left_enqueue may (submitted r.job (List.ne_nil_of_mem may.1.1))
    · cases taken
  | start id =>
    obtain ⟨e,known,taken⟩ := Option.bind_eq_some_iff.mp taken
    split at taken
    · rename_i granted
      cases taken
      exact ⟨⟨inv,order.frame rfl⟩,
        Prod.Lex.right _ (Prod.Lex.left _ _ (start_lower sound known granted))⟩
    · cases taken
  | complete call =>
    obtain ⟨clients,completed,taken⟩ := Option.bind_eq_some_iff.mp taken
    obtain ⟨called,rfl⟩ := Clients.complete_some completed
    cases taken
    refine ⟨⟨inv,order.frame rfl⟩,Prod.Lex.right _ (Prod.Lex.right _ ?_)⟩
    rw [Clients.answer_calls,List.length_erase_of_mem called]
    exact Nat.sub_lt (List.length_pos_of_mem called) Nat.one_pos
  | resume id =>
    obtain ⟨e,known,taken⟩ := Option.bind_eq_some_iff.mp taken
    split at taken
    · rename_i ready
      cases taken
      obtain ⟨rest,rfl⟩ := sound.first known (by rw [ready.1]; exact Stage.noConfusion)
      exact ⟨⟨inv,order.frame rfl⟩,
        Prod.Lex.right _ (Prod.Lex.left _ _ (resume_lower sound))⟩
    · cases taken
  | finish w j =>
    simp only [step] at taken
    split at taken
    · rename_i may
      cases taken
      exact ⟨⟨inv,order.frame rfl⟩,Prod.Lex.left _ _
        (Clients.left_finish may (submitted j (List.ne_nil_of_mem may.1)))⟩
    · cases taken

/-- The call at the head of the line has a step, or one of the calls of `allreduce` that it awaits
ends. -/
theorem Sound.serves {rest : List (Nat × Enqueue)} {id : Nat} {e : Enqueue}
    (sound : Sound cfg work groups early ((id,e) :: rest) s) :
    ∃ l t, inOrder work l s ∧ step cfg work l s = some t := by
  have known := (sound.enqueues id e).mpr List.mem_cons_self
  have head := sound.head _ rfl
  cases stage : e.stage with
  | requested => exact absurd stage head
  | granted => exact ⟨.start id,s.start cfg id e,trivial,by simp [step,known,stage]⟩
  | reducing =>
    cases waits : s.clients.awaits id with
    | false => exact ⟨.resume id,s.resume id,trivial,by simp [step,known,stage,waits]⟩
    | true =>
      obtain ⟨call,called,_⟩ := List.any_eq_true.mp waits
      obtain ⟨first,clients,completed⟩ := Clients.exists_complete called
      exact ⟨.complete first,_,trivial,Option.bind_eq_some_iff.mpr ⟨clients,completed,rfl⟩⟩

/-- Nobody is in line: no collective is in progress, and no group is full. -/
theorem Sound.idle (sound : Sound cfg work groups early [] s)
    (attended : Attended work groups []) (layer : t < (work.model j).length)
    (some : work.widsAllocated j ≠ []) : (groups j t).phase = .gathering 0 ∧
      (groups j t).arrived.length < work.numWorkersAllocated j := by
  have phase : (groups j t).phase = .gathering 0 := by
    by_contra later
    obtain ⟨p,first,_⟩ := sound.reducing j t layer later
    cases first
  have most := (sound.pipelined.consistent.represents j t layer).wellFormed.arrived_le
  refine ⟨phase,most.lt_of_ne fun full => ?_⟩
  have arrived : (groups j t).arrived ≠ [] := by
    intro none
    rw [none] at full
    exact some (List.eq_nil_of_length_eq_zero full.symm)
  obtain ⟨p,member,_⟩ := attended j t layer phase arrived full
  cases member

theorem Sound.finished (sound : Sound cfg work groups early [] s)
    (attended : Attended work groups []) (done : ∀ w j, w ∈ work.widsAllocated j →
      1 < work.numWorkersAllocated j → s.clients.finished w j = true) : Finished cfg work s := by
  have gathering {j t : Nat} (layer : t < (work.model j).length)
      (several : 1 < work.numWorkersAllocated j) : (groups j t).phase = .gathering 0 ∧
        work.nIter j ≤ (groups j t).turn := by
    obtain ⟨w,worker⟩ := List.exists_mem_of_length_pos (Nat.zero_lt_of_lt several)
    obtain ⟨phase,_⟩ := sound.idle attended layer (List.ne_nil_of_mem worker)
    obtain ⟨_,all⟩ := sound.retired w j (done w j worker several)
    have iter := sound.pipelined.iter_of_gathering layer phase worker
    exact ⟨phase,iter ▸ (all t layer).2⟩
  constructor
  case finished => exact done
  case served =>
    rintro ⟨w,j,t⟩ ⟨worker,layer⟩ several turn before
    obtain ⟨phase,last⟩ := gathering layer several
    have past : turn < (groups j t).turn := before.trans_le last
    rw [(sound.pipelined.reduced_once layer worker turn).1,
      sound.collected j t layer w worker turn]
    simp [past]
  case queue =>
    rintro ⟨w,j,t⟩ ⟨_,layer⟩ several
    obtain ⟨phase,last⟩ := gathering layer several
    have none : (groups j t).arrived = [] := by
      by_contra some
      exact absurd (sound.pipelined.turnsLeft_of_arrived layer some) last.not_gt
    have queued : s.queue.get (TensorRef.key cfg ⟨w,j,t⟩) = _ := sound.queue j t layer
    rw [queued,if_pos phase,Group.entries,none]
    rfl
  case calls =>
    apply List.eq_nil_iff_forall_not_mem.mpr
    intro call called
    obtain ⟨j,t,_,_,_,_,layer,phase,_⟩ := sound.pipelined.answer called
    obtain ⟨p,first,_⟩ := sound.reducing j t layer (by rw [phase]; exact Phase.noConfusion)
    cases first
  case lock => exact sound.lock
  case enqueues =>
    intro id
    cases known : s.enqueues id with
    | none => rfl
    | some e => cases (sound.enqueues id e).mp known
  case order => simpa using sound.order

theorem progress (orderly : Orderly cfg work s) : Finished cfg work s ∨
    ∃ l t, inOrder work l s ∧ step cfg work l s = some t := by
  obtain ⟨⟨groups,early,line,sound,attended⟩,order⟩ := orderly
  cases line with
  | cons p rest => exact Or.inr sound.serves
  | nil =>
    by_cases done : ∀ w j, w ∈ work.widsAllocated j → 1 < work.numWorkersAllocated j →
        s.clients.finished w j = true
    · exact Or.inl (sound.finished attended done)
    · push Not at done
      obtain ⟨w,j,worker,several,unfinished⟩ := done
      have idle (t : Nat) (layer : t < (work.model j).length) :=
        sound.idle attended layer (List.ne_nil_of_mem worker)
      have next := sound.pipelined.goes_on order several (fun t layer => (idle t layer).1)
        (fun t layer => (idle t layer).2) worker (Bool.eq_false_of_not_eq_true unfinished)
      rcases next with ⟨r,_,may,reaches⟩ | may
      · exact Or.inr ⟨.enqueue r,_,reaches,if_pos may⟩
      · exact Or.inr ⟨.finish w j,_,trivial,if_pos may⟩

/-- There is no deadlock and no endless run, whatever the order of enqueues, grants, completions and
ends of jobs. -/
theorem jobs_complete (cfg : Config) (work : Workload) (distinct : work.DistinctKeys cfg)
    (jobs : List Nat) (submitted : ∀ j, work.widsAllocated j ≠ [] → j ∈ jobs)
    (s : FirstInFirstOutOneByOne)
    (run : Runs.Run (step cfg work) (inOrder work) (initial work) s) :
    ¬Runs.Endless (step cfg work) (inOrder work) s ∧
      (Finished cfg work s ∨ ∃ l t, inOrder work l s ∧ step cfg work l s = some t) ∧
      ∃ t, Runs.Run (step cfg work) (inOrder work) s t ∧ Finished cfg work t := by
  have lower (l : Label) (s t : FirstInFirstOutOneByOne) (orderly : Orderly cfg work s)
      (allowed : inOrder work l s) (taken : step cfg work l s = some t) :=
    step_lower distinct submitted l s t orderly allowed taken
  have kept : Orderly cfg work s := run.invariant
    (fun l s t orderly allowed taken => (lower l s t orderly allowed taken).1)
    (initial_orderly cfg work)
  refine ⟨Runs.not_endless lower_wf (measure work jobs) lower kept,progress kept,?_⟩
  obtain ⟨t,ends,_,finished⟩ := Runs.exists_final lower_wf (measure work jobs) lower
    (fun s orderly => progress orderly) kept
  exact ⟨t,ends,finished⟩

end run

theorem twoLayers_nodup (j : Nat) : (if j = 0 then [0,1] else []).Nodup := by
  split
  · decide
  · exact List.nodup_nil

theorem twoLayers_fit (j : Nat) : ∀ size ∈ if j = 0 then [3,5] else [], size < 2^64 := by
  by_cases first : j = 0 <;> simp [first]

theorem twoLayers_iters (_ : Nat) : 2 < 2^32 := by decide

/-- Two workers, two tensors, two iterations. -/
def twoLayers : Workload where
  widsAllocated j := if j = 0 then [0,1] else []
  model j := if j = 0 then [3,5] else []
  nIter _ := 2
  widsDistinct := twoLayers_nodup
  sizesFit := twoLayers_fit
  itersFit := twoLayers_iters

theorem twoLayers_distinctKeys : twoLayers.DistinctKeys oneLayerConfig := by
  intro j t i k first second same
  have only (j t : Nat) (inside : t < (twoLayers.model j).length) : j = 0 := by
    by_contra other
    simp [twoLayers,other] at inside
  exact ⟨(only j t first).trans (only i k second).symm,same⟩

/-- The first tensor's group waits in line while the second tensor is reduced. -/
theorem jobs_complete_two_layers :
    ∃ s t, Runs.Run (step oneLayerConfig twoLayers) (inOrder twoLayers) (initial twoLayers) s ∧
      s.completed.length = 2 ∧ s.collectives.length = 1 ∧
      Runs.Run (step oneLayerConfig twoLayers) (inOrder twoLayers) s t ∧
      Finished oneLayerConfig twoLayers t := by
  have ends : (Runs.exec (step oneLayerConfig twoLayers) (inOrder twoLayers)
      [.enqueue ⟨0,0,1⟩,.enqueue ⟨1,0,1⟩,.start 0,.enqueue ⟨0,0,0⟩,.complete ⟨0,⟨⟨0,0,1⟩,0⟩⟩,
        .enqueue ⟨1,0,0⟩] (initial twoLayers)).map
      (fun s => (s.completed.length,s.collectives.length)) = some (2,1) := by decide
  obtain ⟨s,run,counts⟩ := Runs.exists_run_of_exec ends
  have submitted (j : Nat) (placed : twoLayers.widsAllocated j ≠ []) : j ∈ [0] := by
    by_contra other
    exact placed (if_neg fun first => other (List.mem_singleton.mpr first))
  obtain ⟨_,_,t,rest,finished⟩ :=
    jobs_complete oneLayerConfig twoLayers twoLayers_distinctKeys [0] submitted s run
  exact ⟨s,t,run,congrArg Prod.fst counts,congrArg Prod.snd counts,rest,finished⟩

end FirstInFirstOutOneByOne
end CloudSim
