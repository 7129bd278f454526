import CloudSim.TrainingLeases

/-! Every step of a simulation keeps the leases. While `execute_job` of a worker runs, its holds
are a function `f` of the tensor; where it is suspended, its position says what it holds. -/
namespace CloudSim
namespace Training
namespace Position

def waits : Position → Bool
  | forward .. | closing _ | settling _ => true
  | computing .. | backward .. | leaving | gone => false

/-- The position is at one of `n` tensors. -/
def Within (n : Nat) : Position → Prop
  | forward _ t | computing _ t | backward _ t | closing t | settling t => t < n
  | leaving | gone => True

variable {p : Position} {granted : Bool} {t u : Nat}

theorem granted_of_waits (waiting : p.hold granted t = .waits) : granted = false := by
  cases p <;> simp only [hold] at waiting <;> grind

theorem waits_unique (waiting : p.hold granted t = .waits) (also : p.hold granted u = .waits) :
    t = u := by
  cases p <;> simp only [hold] at waiting also <;> grind

theorem hold_given (waiting : p.hold false t = .waits) :
    p.hold true u = if u = t then .holds else p.hold false u := by
  cases p <;> simp only [hold] at waiting ⊢ <;> grind

theorem waits_of_hold (waiting : p.hold granted t = .waits) : p.waits = true := by
  cases p <;> simp only [hold] at waiting <;> first | rfl | grind

end Position

/-- Who was granted a lock waits for one, and the workers of a job run it. -/
structure Placed (d : Plan) (s : Training) : Prop where
  waiting : ∀ w j, .job w j ∈ s.granted → ∃ p, s.position (w,j) = some p ∧ p.waits = true
  within : ∀ w j p, s.position (w,j) = some p →
    w ∈ (d.tree j).workers ∧ p.Within (d.modelSize j)

/-- The invariant of a simulation whose coroutines are all suspended. -/
structure Orderly (d : Plan) (good : Reason) (s : Training) (extra : TensorRef → Nat) : Prop where
  leased : Leased d good s s.holdOf extra
  placed : Placed d s

/-- The holds while `execute_job` of worker `w` for job `j` runs. -/
def holdWith (s : Training) (w j : Nat) (f : Nat → Hold) (r : TensorRef) : Hold :=
  if r.machine = w ∧ r.job = j then f r.tensorId else s.holdOf r

structure Running (d : Plan) (good : Reason) (s : Training) (w j : Nat) (f : Nat → Hold)
    (extra : TensorRef → Nat) : Prop where
  leased : Leased d good s (s.holdWith w j f) extra
  placed : Placed d s
  absent : .job w j ∉ s.granted
  worker : w ∈ (d.tree j).workers

section holds
variable {s s' : Training} {w j t : Nat} {f : Nat → Hold} {r : TensorRef}

theorem holdOf_congr (position : s'.position (r.machine,r.job) = s.position (r.machine,r.job))
    (granted : .job r.machine r.job ∈ s'.granted ↔ .job r.machine r.job ∈ s.granted) :
    s'.holdOf r = s.holdOf r := by
  simp only [holdOf,position,granted]

theorem holdOf_at {p : Position} (position : s.position (w,j) = some p) :
    s.holdOf ⟨w,j,t⟩ = p.hold (decide (.job w j ∈ s.granted)) t := by
  simp only [holdOf,position]

theorem holdWith_own : s.holdWith w j f ⟨w,j,t⟩ = f t := if_pos ⟨rfl,rfl⟩

theorem holdWith_congr (position : ∀ v i, (v,i) ≠ (w,j) → s'.position (v,i) = s.position (v,i))
    (granted : ∀ v i, (v,i) ≠ (w,j) → (.job v i ∈ s'.granted ↔ .job v i ∈ s.granted))
    (r : TensorRef) : s'.holdWith w j f r = s.holdWith w j f r := by
  unfold holdWith
  split
  · rfl
  · rename_i other
    have apart : (r.machine,r.job) ≠ (w,j) := fun same => other (Prod.mk.inj same)
    exact holdOf_congr (position _ _ apart) (granted _ _ apart)

theorem update_holdWith (h : Hold) (r : TensorRef) :
    s.holdWith w j (Function.update f t h) r =
      Function.update (s.holdWith w j f) ⟨w,j,t⟩ h r := by
  rcases eq_or_ne r ⟨w,j,t⟩ with rfl | other
  · rw [Function.update_self,holdWith_own,Function.update_self]
  · rw [Function.update_of_ne other,holdWith,holdWith]
    split
    · rename_i own
      have apart : r.tensorId ≠ t := by
        rintro rfl
        exact other (by obtain ⟨rfl,rfl⟩ := own; rfl)
      rw [Function.update_of_ne apart]
    · rfl

end holds

variable {d : Plan} {good : Reason} {s s' : Training} {w j t : Nat} {f : Nat → Hold}
  {extra : TensorRef → Nat} {p : Position}

theorem Leased.goto (leased : Leased d good s hold extra) (w j : Nat) (p : Position) :
    Leased d good (s.goto w j p) hold extra :=
  ⟨leased.lease,leased.distinct,leased.calls,leased.idle,leased.reasons,leased.real,leased.waiters,
    leased.strange⟩

theorem goto_self : (s.goto w j p).position (w,j) = some p := Function.update_self ..

theorem goto_other {v i : Nat} (other : (v,i) ≠ (w,j)) :
    (s.goto w j p).position (v,i) = s.position (v,i) := Function.update_of_ne other ..

theorem Placed.congr (placed : Placed d s) (position : s'.position = s.position)
    (granted : ∀ v i, .job v i ∈ s'.granted → .job v i ∈ s.granted) : Placed d s' where
  waiting v i member := by rw [position]; exact placed.waiting v i (granted v i member)
  within v i p := by rw [position]; exact placed.within v i p

/-- The coroutine of `w` for `j` is suspended again. -/
theorem Placed.goto (placed : Placed d s) (worker : w ∈ (d.tree j).workers)
    (within : p.Within (d.modelSize j)) (position : s'.position = s.position)
    (granted : ∀ v i, (v,i) ≠ (w,j) → .job v i ∈ s'.granted → .job v i ∈ s.granted)
    (waits : .job w j ∈ s'.granted → p.waits = true) : Placed d (s'.goto w j p) where
  waiting v i member := by
    rcases eq_or_ne (v,i) (w,j) with same | other
    · obtain ⟨rfl,rfl⟩ := Prod.mk.inj same
      exact ⟨p,goto_self,waits member⟩
    · rw [goto_other other,position]
      exact placed.waiting v i (granted v i other member)
  within v i q at' := by
    rcases eq_or_ne (v,i) (w,j) with same | other
    · obtain ⟨rfl,rfl⟩ := Prod.mk.inj same
      rw [goto_self] at at'
      cases at'
      exact ⟨worker,within⟩
    · rw [goto_other other,position] at at'
      exact placed.within v i q at'

namespace Orderly
variable (orderly : Orderly d good s extra)
include orderly

theorem resume (position : s.position (w,j) = some p) (granted : .job w j ∈ s.granted) :
    Running d good { s with granted := s.granted.erase (.job w j) } w j (p.hold true) extra := by
  have leased := orderly.leased
  have kept (waiter : Waiter) (other : waiter ≠ .job w j) :
      waiter ∈ s.granted.erase (.job w j) ↔ waiter ∈ s.granted := List.mem_erase_of_ne other
  have hold (r : TensorRef) : { s with granted := s.granted.erase (.job w j) }.holdWith w j
      (p.hold true) r = s.holdOf r := by
    unfold holdWith
    split
    · rename_i own
      obtain ⟨v,i,t⟩ := r
      obtain ⟨rfl,rfl⟩ := own
      rw [holdOf_at position,decide_eq_true granted]
    · rename_i other
      exact holdOf_congr rfl (kept _ fun same => other (Waiter.job.inj same))
  refine ⟨⟨fun r real => ?_,leased.distinct.erase _,fun r k member =>
    leased.calls r k (List.mem_of_mem_erase member),leased.idle,fun r k g member =>
    leased.reasons r k g (List.mem_of_mem_erase member),leased.real,fun r real waits => ?_,
    leased.strange⟩,orderly.placed.congr rfl fun v i => List.mem_of_mem_erase,
    leased.distinct.not_mem_erase,(orderly.placed.within w j p position).1⟩
  · have same : { s with granted := s.granted.erase (.job w j) }.share d.cfg r = s.share d.cfg r :=
      share_congr rfl rfl rfl (fun k => kept _ Waiter.noConfusion) rfl rfl
    rw [same,hold]
    exact leased.lease r real
  · rw [hold] at waits
    exact fun member => leased.waiters r real waits (List.mem_of_mem_erase member)

theorem elapse (position : s.position (w,j) = some p) (stays : p.waits = false) :
    Running d good s w j (p.hold false) extra := by
  have absent : .job w j ∉ s.granted := by
    intro member
    obtain ⟨q,same,waits⟩ := orderly.placed.waiting w j member
    rw [position] at same
    cases same
    exact Bool.false_ne_true (stays.symm.trans waits)
  refine ⟨orderly.leased.congr fun r _ => ?_,orderly.placed,absent,
    (orderly.placed.within w j p position).1⟩
  unfold holdWith
  split
  · rename_i own
    obtain ⟨v,i,t⟩ := r
    obtain ⟨rfl,rfl⟩ := own
    rw [holdOf_at position,decide_eq_false absent]
  · rfl

theorem begins (position : s.position (w,j) = none) (worker : w ∈ (d.tree j).workers) :
    Running d good s w j (fun _ => .none) extra := by
  have absent : .job w j ∉ s.granted := by
    intro member
    obtain ⟨q,same,_⟩ := orderly.placed.waiting w j member
    rw [position] at same
    cases same
  refine ⟨orderly.leased.congr fun r _ => ?_,orderly.placed,absent,worker⟩
  unfold holdWith
  split
  · rename_i own
    rw [holdOf,own.1,own.2,position]
  · rfl

end Orderly

namespace Running

theorem no_call {events : List Waiter} {given : Bool}
    (jobs : events = if given then [.job w j] else []) (k : Nat) : .call r k ∉ events := by
  rw [jobs]
  split <;> simp

theorem park (running : Running d good s w j f extra) (within : p.Within (d.modelSize j))
    (same : ∀ u < d.modelSize j, p.hold false u = f u) : Orderly d good (s.goto w j p) extra := by
  refine ⟨(running.leased.goto w j p).congr fun r real => ?_,
    running.placed.goto running.worker within rfl (fun _ _ _ => id)
      fun granted => absurd granted running.absent⟩
  by_cases own : r.machine = w ∧ r.job = j
  · obtain ⟨v,i,t⟩ := r
    obtain ⟨rfl,rfl⟩ := own
    have absent : .job v i ∉ (s.goto v i p).granted := running.absent
    rw [holdOf_at goto_self,holdWith_own,decide_eq_false absent]
    exact same t real.2
  · rw [holdWith,if_neg own]
    exact holdOf_congr (goto_other fun same => own (Prod.mk.inj same)) Iff.rfl

section answer
variable {lock : Lock} {result : List Waiter × Resource Waiter} {cause : Cause}
  (keys : d.DistinctKeys) (running : Running d good s w j f extra) (real : d.Real ⟨w,j,t⟩)
  (owns : (⟨w,j,t⟩ : TensorRef).Owns d.cfg lock)
include keys running real owns

theorem answer (triggered : result.1 = []) {h : Hold}
    (here : Lease ⟨w,j,t⟩ (extra ⟨w,j,t⟩) h ((s.answer lock result cause).share d.cfg ⟨w,j,t⟩)) :
    Running d good (s.answer lock result cause) w j (Function.update f t h) extra := by
  have none (waiter : Waiter) : waiter ∉ result.1 := by
    rw [triggered]
    exact List.not_mem_nil
  have granted : s.granted ++ result.1 = s.granted := by rw [triggered,List.append_nil]
  have leased : Leased d good (s.answer lock result cause)
      (Function.update (s.holdWith w j f) ⟨w,j,t⟩ h) extra :=
    (running.leased.apart _).answer keys real owns (fun waiter new => absurd new (none waiter))
      (by rw [granted]; exact running.leased.distinct) (fun _ _ new _ => absurd new (none _))
      (fun q _ other => Function.update_of_ne other ..) (fun _ _ => rfl)
      (by rw [Function.update_self]; exact here) (fun _ => by rw [granted]; exact running.absent)
      (fun new => absurd new (none _))
  refine ⟨leased.congr fun r _ => ?_,running.placed.congr rfl fun v i member => ?_,?_,
    running.worker⟩
  · rw [← update_holdWith]
    have same (v i : Nat) : .job v i ∈ s.granted ++ result.1 ↔ .job v i ∈ s.granted := by
      rw [granted]
    refine holdWith_congr ?_ ?_ r
    · exact fun _ _ _ => rfl
    · exact fun v i _ => same v i
  · exact granted ▸ member
  · exact fun member => running.absent (granted ▸ member)

/-- A lock is asked for, and the coroutine is suspended at the request. -/
theorem suspend {given : Bool} (jobs : result.1 = if given then [.job w j] else [])
    (within : p.Within (d.modelSize j)) (waits : p.waits = true)
    (here : Lease ⟨w,j,t⟩ (extra ⟨w,j,t⟩) (p.hold given t)
      ((s.answer lock result cause).share d.cfg ⟨w,j,t⟩))
    (same : ∀ u < d.modelSize j, u ≠ t → p.hold given u = f u) :
    Orderly d good ((s.answer lock result cause).goto w j p) extra := by
  have mine (waiter : Waiter) (new : waiter ∈ result.1) : waiter = .job w j ∧ given = true := by
    rw [jobs] at new
    split at new
    · rename_i some
      exact ⟨List.mem_singleton.mp new,some⟩
    · cases new
  have now : .job w j ∈ s.granted ++ result.1 ↔ given = true := by
    rw [List.mem_append,or_iff_right running.absent]
    refine ⟨fun new => (mine _ new).2,fun some => ?_⟩
    rw [jobs,if_pos some]
    exact List.mem_singleton_self _
  have others (v i : Nat) (other : (v,i) ≠ (w,j)) :
      .job v i ∈ s.granted ++ result.1 ↔ .job v i ∈ s.granted := by
    rw [List.mem_append]
    refine or_iff_left fun new => other ?_
    obtain ⟨rfl,rfl⟩ := Waiter.job.inj (mine _ new).1
    rfl
  have owned (q : TensorRef) (other : q ≠ ⟨w,j,t⟩) (machine : q.machine = w) (job : q.job = j) :
      q.tensorId ≠ t := by
    rintro rfl
    obtain ⟨rfl,rfl⟩ := And.intro machine job
    exact other rfl
  have leased :
      Leased d good (s.answer lock result cause) (s.holdWith w j (p.hold given)) extra := by
    refine (running.leased.apart _).answer keys real owns
      (fun waiter new => Or.inl (mine waiter new).1) ?_
      (fun _ _ new _ => by cases (mine _ new).1) (fun q also other => ?_) (fun _ _ => rfl)
      (by rw [holdWith_own]; exact here) ?_ ?_
    · refine List.nodup_append.mpr ⟨running.leased.distinct,?_,fun a old b new same => ?_⟩
      · rw [jobs]
        split
        · exact List.nodup_singleton _
        · exact List.nodup_nil
      · exact running.absent ((mine b new).1 ▸ same ▸ old)
    · unfold holdWith
      split
      · rename_i own
        exact same q.tensorId (own.2 ▸ also.2) (owned q other own.1 own.2)
      · rfl
    · rw [holdWith_own]
      intro asks new
      rw [now,Position.granted_of_waits asks] at new
      cases new
    · intro new q also other machine job asks
      rw [(mine _ new).2] at same
      have job : q.job = j := job
      have below : q.tensorId < d.modelSize j := job ▸ also.2
      rw [holdWith,if_pos ⟨machine,job⟩,← same q.tensorId below (owned q other machine job)] at asks
      cases Position.granted_of_waits asks
  refine ⟨(leased.goto w j p).congr fun r _ => ?_,running.placed.goto running.worker within rfl
    (fun v i other => (others v i other).mp) fun _ => waits⟩
  by_cases own : r.machine = w ∧ r.job = j
  · obtain ⟨v,i,u⟩ := r
    obtain ⟨rfl,rfl⟩ := own
    rw [holdOf_at goto_self,holdWith_own]
    exact congrArg (fun b => p.hold b u) (by rw [Bool.eq_iff_iff,decide_eq_true_iff]; exact now)
  · rw [holdWith,if_neg own]
    have apart : (r.machine,r.job) ≠ (w,j) := fun same => own (Prod.mk.inj same)
    exact holdOf_congr (goto_other apart) (others _ _ apart)

end answer

section locks
variable {r : TensorRef} (keys : d.DistinctKeys) (running : Running d good s w j f extra)
  (real : d.Real ⟨w,j,t⟩)
include keys running real

/-- `fp_locks[t]` is given back. -/
theorem release_fp (cause : Cause) {h : Hold}
    (triggered : (s.locks ((⟨w,j,t⟩ : TensorRef).fpLock d.cfg)).release.1 = [])
    (here : Lease ⟨w,j,t⟩ (extra ⟨w,j,t⟩) h { s.share d.cfg ⟨w,j,t⟩ with
      fp := (s.locks ((⟨w,j,t⟩ : TensorRef).fpLock d.cfg)).release.2 }) :
    Running d good (s.release ((⟨w,j,t⟩ : TensorRef).fpLock d.cfg) cause) w j
      (Function.update f t h) extra := by
  refine running.answer keys real (Or.inl rfl) triggered ?_
  rw [share_fp (no_call (show _ = if false then [.job w j] else [] from triggered))]
  exact here

theorem release_allreduce (cause : Cause) {h : Hold}
    (triggered : (s.locks ((⟨w,j,t⟩ : TensorRef).allreduceLock d.cfg)).release.1 = [])
    (here : Lease ⟨w,j,t⟩ (extra ⟨w,j,t⟩) h { s.share d.cfg ⟨w,j,t⟩ with
      allreduce := (s.locks ((⟨w,j,t⟩ : TensorRef).allreduceLock d.cfg)).release.2 }) :
    Running d good (s.release ((⟨w,j,t⟩ : TensorRef).allreduceLock d.cfg) cause) w j
      (Function.update f t h) extra := by
  refine running.answer keys real (Or.inr rfl) triggered ?_
  rw [share_allreduce (no_call (show _ = if false then [.job w j] else [] from triggered))]
  exact here

variable {given : Bool} (within : p.Within (d.modelSize j)) (waits : p.waits = true)
  (same : ∀ u < d.modelSize j, u ≠ t → p.hold given u = f u)
include within waits same

/-- `fp_locks[t]` is asked for. -/
theorem request_fp
    (jobs : ((s.locks ((⟨w,j,t⟩ : TensorRef).fpLock d.cfg)).request (.job w j)).1 =
      if given then [.job w j] else [])
    (here : Lease ⟨w,j,t⟩ (extra ⟨w,j,t⟩) (p.hold given t) { s.share d.cfg ⟨w,j,t⟩ with
      fp := ((s.locks ((⟨w,j,t⟩ : TensorRef).fpLock d.cfg)).request (.job w j)).2 }) :
    Orderly d good ((s.request ((⟨w,j,t⟩ : TensorRef).fpLock d.cfg) (.job w j)).goto w j p)
      extra := by
  refine running.suspend keys real (Or.inl rfl) jobs within waits ?_ same
  rw [share_fp (no_call jobs)]
  exact here

theorem request_allreduce
    (jobs : ((s.locks ((⟨w,j,t⟩ : TensorRef).allreduceLock d.cfg)).request (.job w j)).1 =
      if given then [.job w j] else [])
    (here : Lease ⟨w,j,t⟩ (extra ⟨w,j,t⟩) (p.hold given t) { s.share d.cfg ⟨w,j,t⟩ with
      allreduce := ((s.locks ((⟨w,j,t⟩ : TensorRef).allreduceLock d.cfg)).request (.job w j)).2 }) :
    Orderly d good ((s.request ((⟨w,j,t⟩ : TensorRef).allreduceLock d.cfg) (.job w j)).goto w j p)
      extra := by
  refine running.suspend keys real (Or.inr rfl) jobs within waits ?_ same
  rw [share_allreduce (no_call jobs)]
  exact here

end locks

section tensors
variable (keys : d.DistinctKeys) (running : Running d good s w j f extra) (real : d.Real ⟨w,j,t⟩)
include running real

theorem lease : Lease ⟨w,j,t⟩ (extra ⟨w,j,t⟩) (f t) (s.share d.cfg ⟨w,j,t⟩) := by
  have lease := running.leased.lease ⟨w,j,t⟩ real
  rwa [holdWith_own] at lease

theorem enqueue (holds : f t = .holds) :
    Running d good { s with pending := Function.update s.pending ⟨w,j,t⟩ true } w j
      (Function.update f t .none) extra := by
  have queued := (holds ▸ running.lease real).enqueue
  refine
    ⟨{ running.leased with lease := fun r also => ?_, real := fun r some => ?_, waiters := ?_ },
    running.placed.congr rfl fun _ _ => id,running.absent,running.worker⟩
  · change Lease r _ (s.holdWith w j _ r) _
    rw [update_holdWith]
    rcases eq_or_ne r ⟨w,j,t⟩ with rfl | other
    · rw [Function.update_self]
      convert queued using 1
      simp only [share,Function.update_self]
      rfl
    · rw [Function.update_of_ne other]
      convert running.leased.lease r also using 1
      simp only [share,Function.update_of_ne other]
      rfl
  · rcases eq_or_ne r ⟨w,j,t⟩ with rfl | other
    · exact real
    · dsimp only at some
      rw [Function.update_of_ne other] at some
      exact running.leased.real r some
  · intro r also waits
    change s.holdWith w j _ r = _ at waits
    rw [update_holdWith] at waits
    rcases eq_or_ne r ⟨w,j,t⟩ with rfl | other
    · rw [Function.update_self] at waits
      cases waits
    · rw [Function.update_of_ne other] at waits
      exact running.leased.waiters r also waits

include keys

omit real in
/-- Without a scheduler `allreduce` is called at once. -/
theorem call (pending : s.pending ⟨w,j,t⟩ = true) (quiet : s.lastCall ⟨w,j,t⟩ = .ended) :
    Running d good (s.callAllreduce d ⟨w,j,t⟩) w j f extra := by
  obtain ⟨leased,events⟩ := running.leased.call keys pending quiet
  have granted (v i : Nat) : .job v i ∈ (s.callAllreduce d ⟨w,j,t⟩).granted ↔
      .job v i ∈ s.granted := by
    rw [events]
    simp
  refine ⟨leased.congr fun r _ => ?_,running.placed.congr rfl fun v i => (granted v i).mp,
    fun member => running.absent ((granted w j).mp member),running.worker⟩
  refine holdWith_congr ?_ ?_ r
  · exact fun _ _ _ => rfl
  · exact fun v i _ => granted v i

theorem reduce (holds : f t = .holds) :
    Running d good (s.reduce d w j t) w j (Function.update f t .none) extra := by
  unfold Training.reduce
  split
  · split
    · exact running.enqueue real holds
    · have quiet := ((holds ▸ running.lease real).of_holds Hold.noConfusion Hold.noConfusion).2.1
      exact (running.enqueue real holds).call keys (Function.update_self ..) quiet
  · obtain ⟨triggered,given⟩ := (holds ▸ running.lease real).give
    exact running.release_fp keys real _ triggered given

theorem request (free : f t = .none) (within : p.Within (d.modelSize j)) (waits : p.waits = true)
    (here : ∀ given, p.hold given t = if given then .holds else .waits)
    (same : ∀ given, ∀ u < d.modelSize j, u ≠ t → p.hold given u = f u) :
    Orderly d good ((s.request ((⟨w,j,t⟩ : TensorRef).fpLock d.cfg) (.job w j)).goto w j p)
      extra := by
  rcases (free ▸ running.lease real).request with ⟨triggered,lease⟩ | ⟨triggered,lease⟩
  · exact running.request_fp keys real within waits (same true) triggered
      (here true ▸ lease)
  · exact running.request_fp keys real within waits (same false) triggered
      (here false ▸ lease)

end tensors

section loops
variable (keys : d.DistinctKeys)
include keys

theorem close (running : Running d good s w j f extra)
    (holds : ∀ u < d.modelSize j, f u = if u < t then .quit else .none) :
    Orderly d good (s.close d w j t) extra := by
  unfold Training.close
  split
  · rename_i more
    refine running.request keys ⟨running.worker,more⟩ ?_ more rfl ?_ ?_
    · rw [holds t more,if_neg (Nat.lt_irrefl t)]
    · intro given
      simp [Position.hold]
    · intro given u below other
      rw [holds u below]
      simp only [Position.hold,if_neg other]
  · rename_i last
    refine running.park trivial fun u below => ?_
    rw [holds u below,if_pos (by omega)]
    rfl

theorem iterate (running : Running d good s w j f extra) (holds : ∀ u < d.modelSize j, f u = .none)
    (iter : Nat) : Orderly d good (s.iterate d w j iter) extra := by
  unfold Training.iterate
  split
  · rename_i more
    refine running.request keys ⟨running.worker,more.2⟩ (holds 0 more.2) more.2 rfl ?_ ?_
    · intro given
      simp [Position.hold]
    · intro given u below other
      rw [holds u below]
      simp only [Position.hold,if_neg (Nat.not_lt_zero u),if_neg other]
  · exact running.close keys fun u below => by rw [holds u below,if_neg (Nat.not_lt_zero u)]

theorem passForward (running : Running d good s w j f extra) (inside : t < d.modelSize j)
    (holds : ∀ u < d.modelSize j, f u = if u ≤ t then .holds else .none) (iter : Nat) :
    Orderly d good (s.passForward d w j iter t) extra := by
  unfold Training.passForward
  split
  · rename_i more
    refine running.request keys ⟨running.worker,more⟩ ?_ more rfl ?_ ?_
    · rw [holds _ more,if_neg (Nat.not_succ_le_self t)]
    · intro given
      simp [Position.hold]
    · intro given u below other
      rw [holds u below]
      simp only [Position.hold,Nat.lt_succ_iff,if_neg other]
  · exact running.park inside fun u below => (holds u below).symm

theorem passBackward (running : Running d good s w j f extra) (inside : t < d.modelSize j)
    (holds : ∀ u < d.modelSize j, f u = if u ≤ t then .holds else .none) (iter : Nat) :
    Orderly d good (s.passBackward d w j iter t) extra := by
  have given := running.reduce keys ⟨running.worker,inside⟩ (by
    rw [holds t inside,if_pos (Nat.le_refl t)])
  cases t with
  | zero =>
    refine given.iterate keys (fun u below => ?_) _
    rcases Nat.eq_zero_or_pos u with rfl | some
    · rw [Function.update_self]
    · rw [Function.update_of_ne some.ne',holds u below,if_neg (by omega)]
  | succ t =>
    refine given.park (Nat.lt_of_succ_lt inside) fun u below => ?_
    rcases eq_or_ne u (t + 1) with rfl | other
    · rw [Function.update_self]
      exact if_neg (Nat.not_succ_le_self t)
    · rw [Function.update_of_ne other,holds u below]
      exact if_congr (by omega) rfl rfl

theorem secondLock (running : Running d good s w j f extra) (inside : t < d.modelSize j)
    (holds : ∀ u < d.modelSize j,
      f u = if u < t then .quit else if u = t then .holds else .none) :
    Orderly d good ((s.request ((⟨w,j,t⟩ : TensorRef).allreduceLock d.cfg) (.job w j)).goto w j
      (.settling t)) extra := by
  have real : d.Real ⟨w,j,t⟩ := ⟨running.worker,inside⟩
  have lease := running.lease real
  rw [holds t inside,if_neg (Nat.lt_irrefl t),if_pos rfl] at lease
  obtain ⟨triggered,settled⟩ := lease.settle
  have here : (Position.settling t).hold true t = .settles := by simp [Position.hold]
  refine running.request_allreduce keys real inside rfl ?_
    (show _ = if true then [Waiter.job w j] else [] from triggered) (here ▸ settled)
  intro u below other
  rw [holds u below]
  simp [Position.hold,other]

theorem settle (running : Running d good s w j f extra) (inside : t < d.modelSize j)
    (holds : ∀ u < d.modelSize j,
      f u = if u < t then .quit else if u = t then .settles else .none) :
    Orderly d good (s.settle d w j t) extra := by
  have real : d.Real ⟨w,j,t⟩ := ⟨running.worker,inside⟩
  have lease := running.lease real
  rw [holds t inside,if_neg (Nat.lt_irrefl t),if_pos rfl] at lease
  obtain ⟨triggered,yields⟩ := lease.leave
  have middle := running.release_fp keys real (.coroutine (.job w j)) triggered yields
  have lease := middle.lease real
  rw [Function.update_self] at lease
  obtain ⟨triggered,quit⟩ := lease.abandon
  refine (middle.release_allreduce keys real (.coroutine (.job w j)) triggered quit).close keys ?_
  intro u below
  rcases eq_or_ne u t with rfl | other
  · rw [Function.update_self,if_pos (Nat.lt_succ_self u)]
  · rw [Function.update_of_ne other,Function.update_of_ne other,holds u below,if_neg other]
    exact if_congr (by omega) rfl rfl

end loops
end Running

namespace Orderly
variable {r : TensorRef} {k : Nat}

theorem renew (orderly : Orderly d good s extra) (fabric : Fabric) (jobs : List Nat) :
    Orderly d good { s with fabric := fabric, jobs := jobs } extra :=
  ⟨⟨orderly.leased.lease,orderly.leased.distinct,orderly.leased.calls,orderly.leased.idle,
    orderly.leased.reasons,orderly.leased.real,orderly.leased.waiters,orderly.leased.strange⟩,
    ⟨orderly.placed.waiting,orderly.placed.within⟩⟩

/-- What `execute_job` holds or has left is not being reduced. -/
theorem quiet (orderly : Orderly d good s extra) (real : d.Real r)
    (own : s.holdOf r = .holds ∨ s.holdOf r = .quit) : s.lastCall r = .ended := by
  have lease := orderly.leased.lease r real
  rcases own with same | same <;> rw [same] at lease <;> exact (lease.of_holds nofun nofun).2.1

/-- A step that grants no lock to an `execute_job`. -/
theorem of_calls {extra' : TensorRef → Nat} (orderly : Orderly d good s extra)
    (leased : Leased d good s' s.holdOf extra') (position : s'.position = s.position)
    (granted : ∀ v i, .job v i ∈ s'.granted ↔ .job v i ∈ s.granted) : Orderly d good s' extra' :=
  ⟨leased.congr fun _ _ => holdOf_congr (congrFun position _) (granted _ _),
    orderly.placed.congr position fun v i => (granted v i).mp⟩

variable (keys : d.DistinctKeys) (orderly : Orderly d good s extra)
include keys orderly

theorem call (pending : s.pending r = true) (quiet : s.lastCall r = .ended) :
    Orderly d good (s.callAllreduce d r) extra := by
  obtain ⟨leased,events⟩ := orderly.leased.call keys pending quiet
  refine orderly.of_calls leased rfl fun v i => ?_
  rw [events]
  simp

theorem launch (member : .call r k ∈ s.granted) (first : s.stage r k = .first)
    (left : extra r ≠ 0 → good r k .request) :
    Orderly d good ({ s with granted := s.granted.erase (.call r k) }.launch d r k)
      (Function.update extra r (extra r - 1)) := by
  let g := Worker.allreduceSize (if d.scheduled then d.chunkSize else 0) (s.fabric.objs.tensor r)
  obtain ⟨leased,events⟩ :=
    orderly.leased.again keys member first left (s.fabric.launch d.cfg r g) g
  refine orderly.of_calls leased rfl fun v i => ?_
  have granted : ({ s with granted := s.granted.erase (.call r k) }.launch d r k).granted = _ :=
    events
  rw [granted,List.mem_append,List.mem_erase_of_ne Waiter.noConfusion]
  refine or_iff_left fun new => ?_
  split at new <;> simp at new

theorem reduced (pending : s.pending r = true) (quiet : s.lastCall r = .ended) (cause : Cause) :
    Orderly d good
      ({ s with pending := Function.update s.pending r false }.release (r.fpLock d.cfg) cause)
      extra := by
  obtain ⟨w,j,t⟩ := r
  have at' (u : Nat) (waits : s.holdOf ⟨w,j,u⟩ = .waits) : ∃ p, s.position (w,j) = some p ∧
      p.hold false u = .waits := by
    simp only [holdOf] at waits
    split at waits
    · cases waits
    · rename_i p position
      rw [Position.granted_of_waits waits] at waits
      exact ⟨p,position,waits⟩
  have single : ∀ q, d.Real q → q ≠ ⟨w,j,t⟩ → q.machine = w → q.job = j →
      s.holdOf ⟨w,j,t⟩ = .waits → s.holdOf q ≠ .waits := by
    rintro ⟨v,i,u⟩ _ other rfl rfl waits also
    obtain ⟨p,position,here⟩ := at' t waits
    obtain ⟨_,same,there⟩ := at' u also
    cases position.symm.trans same
    exact other (congrArg (TensorRef.mk v i) (Position.waits_unique there here))
  obtain ⟨leased,events⟩ := orderly.leased.reduced keys pending quiet single cause
  set s₁ := { s with pending := Function.update s.pending ⟨w,j,t⟩ false }.release
    ((⟨w,j,t⟩ : TensorRef).fpLock d.cfg) cause
  have position : s₁.position = s.position := rfl
  by_cases waits : s.holdOf ⟨w,j,t⟩ = .waits
  · rw [if_pos waits] at leased events
    obtain ⟨p,here,hold⟩ := at' t waits
    have others (v i : Nat) (other : (v,i) ≠ (w,j)) :
        .job v i ∈ s₁.granted ↔ .job v i ∈ s.granted := by
      rw [events,List.mem_append]
      refine or_iff_left fun new => other ?_
      obtain ⟨rfl,rfl⟩ := Waiter.job.inj (List.mem_singleton.mp new)
      rfl
    refine ⟨leased.congr fun q real => ?_,fun v i member => ?_,fun v i => ?_⟩
    · obtain ⟨v,i,u⟩ := q
      by_cases own : v = w ∧ i = j
      · obtain ⟨rfl,rfl⟩ := own
        have now : .job v i ∈ s₁.granted := by rw [events]; simp
        have absent : .job v i ∉ s.granted :=
          orderly.leased.waiters _ (orderly.leased.real _ pending) waits
        rw [holdOf_at (position ▸ here),decide_eq_true now,Position.hold_given hold]
        rcases eq_or_ne u t with rfl | other
        · rw [if_pos rfl,Function.update_self]
        · rw [if_neg other,
            Function.update_of_ne fun same => other (congrArg TensorRef.tensorId same),
            holdOf_at here,decide_eq_false absent]
      · have apart : (v,i) ≠ (w,j) := fun same => own (Prod.mk.inj same)
        rw [Function.update_of_ne fun same => own ⟨congrArg TensorRef.machine same,
          congrArg TensorRef.job same⟩]
        exact holdOf_congr rfl (others v i apart)
    · rcases eq_or_ne (v,i) (w,j) with same | other
      · obtain ⟨rfl,rfl⟩ := Prod.mk.inj same
        exact ⟨p,position ▸ here,Position.waits_of_hold hold⟩
      · exact position ▸ orderly.placed.waiting v i ((others v i other).mp member)
    · exact position ▸ orderly.placed.within v i
  · rw [if_neg waits,Function.update_eq_self] at leased
    rw [if_neg waits,List.append_nil] at events
    exact orderly.of_calls leased rfl fun v i => by rw [events]

theorem finish (member : .call r k ∈ s.granted) {g : Nat} (second : s.stage r k = .second g) :
    Orderly d good ({ s with granted := s.granted.erase (.call r k) }.finish d r k g) extra := by
  have before := orderly
  obtain ⟨real,called,stage,_⟩ := orderly.leased.resumes member
  obtain ⟨leased,events⟩ := orderly.leased.ends keys member second
    (s.fabric.finish d.cfg r g k) (.coroutine (.call r k))
  set s₁ := (s.resumed r k (s.fabric.finish d.cfg r g k) .ended).release (r.allreduceLock d.cfg)
    (.coroutine (.call r k)) with ended
  have orderly : Orderly d good s₁ extra := orderly.of_calls leased rfl fun v i => by
    rw [events,List.mem_erase_of_ne Waiter.noConfusion]
  have pending : s₁.pending r = true :=
    (before.leased.lease r real).pending_of_call (by rw [stage,second]; exact nofun)
  have quiet : s₁.lastCall r = .ended := by
    have called : s₁.called r = k + 1 := called
    simp only [lastCall,called]
    simp [ended,resumed,release,answer,setStage]
  unfold Training.finish
  dsimp only
  split
  · exact orderly.reduced keys pending quiet _
  · exact orderly

/-- A packet is delivered. Nothing is left over if a call waits for it. -/
theorem deliver (fl : Flight) (fits : ∀ w q k g, fl.hop.dest = .worker w →
      s.fabric.releases d.cfg fl = true → d.Real q →
      (fl.layer.ref w).allreduceLock d.cfg = q.allreduceLock d.cfg → s.called q = k + 1 →
      s.stage q k = .second g → good q k (.packet fl)) :
    ∃ extra', Orderly d good (s.deliver d fl) extra' ∧
      ((∀ w q, fl.hop.dest = .worker w → s.fabric.releases d.cfg fl = true → d.Real q →
        (fl.layer.ref w).allreduceLock d.cfg = q.allreduceLock d.cfg → s.Waits q) →
        extra' = extra) := by
  have renewed := orderly.renew (s.fabric.deliver d.cfg fl) s.jobs
  unfold Training.deliver
  dsimp only
  split
  · exact ⟨extra,renewed,fun _ => rfl⟩
  · exact ⟨extra,renewed,fun _ => rfl⟩
  · rename_i w dest
    split
    · rename_i released
      obtain ⟨extra',leased,calls,same⟩ := renewed.leased.packet keys
        ((fl.layer.ref w).allreduceLock d.cfg) rfl (.packet fl)
          fun q k g => fits w q k g dest released
      refine ⟨extra',renewed.of_calls leased rfl fun v i => ?_,fun waits => same fun q => ?_⟩
      · refine List.mem_append.trans (or_iff_left fun new => ?_)
        obtain ⟨q,k,_,call,_⟩ := calls _ new
        cases call
      · exact waits w q dest released
    · exact ⟨extra,renewed,fun _ => rfl⟩

theorem elapses (taken : s.elapse d w j = some s') : Orderly d good s' extra := by
  unfold Training.elapse at taken
  split at taken
  · rename_i iter t position
    cases taken
    exact (orderly.elapse position rfl).passForward keys (orderly.placed.within w j _ position).2
      (fun _ _ => rfl) iter
  · rename_i iter t position
    cases taken
    exact (orderly.elapse position rfl).passBackward keys (orderly.placed.within w j _ position).2
      (fun _ _ => rfl) iter
  · rename_i position
    cases taken
    exact (orderly.elapse position rfl).park trivial fun _ _ => rfl
  · cases taken

/-- A granted `execute_job` goes on. -/
theorem resumeJob (granted : .job w j ∈ s.granted)
    (taken : { s with granted := s.granted.erase (.job w j) }.resumeJob d w j = some s') :
    Orderly d good s' extra := by
  unfold Training.resumeJob at taken
  split at taken
  · rename_i iter t position
    cases taken
    have inside : t < d.modelSize j := (orderly.placed.within w j _ position).2
    refine (orderly.resume position granted).park inside fun u _ => ?_
    simp only [Position.hold,if_true]
    rcases Nat.lt_trichotomy u t with less | rfl | more
    · rw [if_pos less.le,if_pos less]
    · rw [if_pos (Nat.le_refl u),if_neg (Nat.lt_irrefl u),if_pos rfl]
    · rw [if_neg (by omega),if_neg (by omega),if_neg (by omega)]
  · rename_i t position
    cases taken
    have inside : t < d.modelSize j := (orderly.placed.within w j _ position).2
    exact (orderly.resume position granted).secondLock keys inside fun u _ => by
      simp [Position.hold]
  · rename_i t position
    cases taken
    have inside : t < d.modelSize j := (orderly.placed.within w j _ position).2
    exact (orderly.resume position granted).settle keys inside fun _ _ => rfl
  · cases taken

end Orderly

theorem initial_orderly (d : Plan) (good : Reason) :
    Orderly d good (initial d) fun _ => 0 where
  leased :=
    { lease := fun _ _ => .rest
      distinct := List.nodup_nil
      calls := nofun
      idle := fun _ _ _ => rfl
      reasons := nofun
      real := nofun
      waiters := nofun
      strange := fun _ _ => rfl }
  placed := ⟨nofun,nofun⟩

theorem Orderly.mono {good' : Reason} (orderly : Orderly d good s extra)
    (weaker : ∀ r k g c, .call r k ∈ s.granted → s.stage r k = .second g → good r k c →
      good' r k c) : Orderly d good' s extra :=
  ⟨{ orderly.leased with
      reasons := fun r k g member second =>
        weaker r k g _ member second (orderly.leased.reasons r k g member second) },orderly.placed⟩

end Training
end CloudSim
