import CloudSim.Lifetime

/-! How many iterations of a tensor are over on its worker. The position of `execute_job` tells the
backward passes that have ended; of these only the last may still be reduced. -/
namespace CloudSim
namespace Training
namespace Position

/-- The iterations whose backward pass of tensor `t` has ended. -/
def passes (nIter t : Nat) : Position → Nat
  | forward iter _ | computing iter _ => iter
  | backward iter u => if u < t then iter + 1 else iter
  | closing _ | settling _ | leaving | gone => nIter

/-- The position is in one of `n` iterations, or after them. -/
def InLoop (n : Nat) : Position → Prop
  | forward iter _ | computing iter _ | backward iter _ => iter < n
  | closing _ | settling _ | leaving | gone => True

end Position

variable {d : Plan} {s s' : Training}

def passes (d : Plan) (s : Training) (r : TensorRef) : Nat :=
  match s.position (r.machine,r.job) with
  | none => 0
  | some p => p.passes (d.nIter r.job) r.tensorId

/-- The iterations of a tensor that are over on its worker: the backward pass has ended, and so
has the reduction if the job has several workers. -/
def reduced (d : Plan) (s : Training) (r : TensorRef) : Nat :=
  s.passes d r - if s.pending r then 1 else 0

/-- The tensor that a step ends an iteration of. Its `allreduce` has reduced it completely, or it
has passed backward on the only worker of its job. -/
def ended (d : Plan) (s : Training) : Label → Option TensorRef
  | .elapse w j =>
    match s.position (w,j) with
    | some (.backward _ t) => if 1 < (d.tree j).workers.length then none else some ⟨w,j,t⟩
    | _ => none
  | .resume (.call r k) =>
    match s.stage r k with
    | .second gradSize =>
      let t := s.fabric.objs.tensor r
      if t.size ≤ u64 (t.allreducedSize + gradSize) then some r else none
    | _ => none
  | _ => none

theorem passes_at {p : Position} (position : s.position (w,j) = some p) :
    s.passes d ⟨w,j,t⟩ = p.passes (d.nIter j) t := by
  simp only [passes,position]

theorem passes_congr (position : s'.position (r.machine,r.job) = s.position (r.machine,r.job)) :
    s'.passes d r = s.passes d r := by
  simp only [passes,position]

structure Ledger (d : Plan) (s : Training) : Prop where
  orderly : ∃ extra, Orderly d anyCause s extra
  started : ∀ w j p, s.position (w,j) = some p → j ∈ s.jobs
  iterating : ∀ w j p, s.position (w,j) = some p → p.InLoop (d.nIter j)
  several : ∀ r, s.pending r = true → 1 < (d.tree r.job).workers.length
  booked : ∀ r, s.pending r = true → 0 < s.passes d r

section pending
variable (d : Plan) (s : Training) (w j t iter : Nat)

@[simp] theorem pending_close : (s.close d w j t).pending = s.pending := by
  unfold close
  split <;> rfl

@[simp] theorem pending_iterate : (s.iterate d w j iter).pending = s.pending := by
  unfold iterate
  split
  · rfl
  · exact s.pending_close d w j 0

@[simp] theorem pending_passForward : (s.passForward d w j iter t).pending = s.pending := by
  unfold passForward
  split <;> rfl

@[simp] theorem pending_settle : (s.settle d w j t).pending = s.pending :=
  pending_close ..

/-- A backward pass hands its tensor to the other workers of the job. -/
theorem pending_reduce : (s.reduce d w j t).pending =
    if 1 < (d.tree j).workers.length then Function.update s.pending ⟨w,j,t⟩ true
    else s.pending := by
  unfold reduce
  split
  · split <;> rfl
  · rfl

theorem pending_deliver (fl : Flight) : (s.deliver d fl).pending = s.pending := by
  dsimp only [deliver]
  split
  · rfl
  · rfl
  · split <;> rfl

theorem pending_finish (r : TensorRef) (k gradSize : Nat) : (s.finish d r k gradSize).pending =
    if (s.fabric.objs.tensor r).size ≤ u64 ((s.fabric.objs.tensor r).allreducedSize + gradSize) then
      Function.update s.pending r false
    else s.pending := by
  dsimp only [finish]
  split <;> rfl

end pending

/-- The end of a backward pass of `t` is one more pass of `t`. -/
theorem passBackward_onward (position : s.position (w,j) = some (.backward iter t))
    (now : iter < d.nIter j) : ∃ p, (s.passBackward d w j iter t).jobs = s.jobs ∧
      (s.passBackward d w j iter t).position = Function.update s.position (w,j) (some p) ∧
      p.InLoop (d.nIter j) ∧ ∀ u < d.modelSize j,
        p.passes (d.nIter j) u = s.passes d ⟨w,j,u⟩ + if u = t then 1 else 0 := by
  obtain ⟨_,jobs,same⟩ := s.reduce_fields d w j t
  cases t with
  | zero =>
    obtain ⟨p,onward,next⟩ := (s.reduce d w j 0).iterate_onward d w j (iter + 1)
    refine ⟨p,onward.jobs.trans jobs,onward.position.trans (by rw [same]),?_,fun u _ => ?_⟩
    · rcases next with ⟨rfl,more⟩ | ⟨_,rfl | rfl⟩
      · exact more
      · trivial
      · trivial
    · have total : p.passes (d.nIter j) u = iter + 1 := by
        rcases next with ⟨rfl,_⟩ | ⟨last,rfl | rfl⟩
        · rfl
        · exact (show d.nIter j = iter + 1 by omega)
        · exact (show d.nIter j = iter + 1 by omega)
      rw [total,passes_at position]
      simp only [Position.passes]
      split <;> split <;> omega
  | succ t =>
    refine ⟨.backward iter t,jobs,congrArg (Function.update · _ _) same,now,fun u _ => ?_⟩
    rw [passes_at position]
    simp only [Position.passes]
    split <;> split <;> split <;> omega

/-- After the step the books are kept, and the iteration of one tensor at most is over. -/
def Booked (d : Plan) (s s' : Training) (past : Option TensorRef) : Prop :=
  Ledger d s' ∧
    ∀ r, d.Real r → s'.reduced d r = s.reduced d r + if past = some r then 1 else 0

namespace Ledger
variable (ledger : Ledger d s) (orderly : ∃ extra, Orderly d anyCause s' extra)
include ledger orderly

/-- A step that moves no `execute_job` and ends no iteration. -/
theorem keep (jobs : ∀ j ∈ s.jobs, j ∈ s'.jobs) (position : s'.position = s.position)
    (pending : s'.pending = s.pending) : Booked d s s' none := by
  have passes (r : TensorRef) : s'.passes d r = s.passes d r := passes_congr (by rw [position])
  refine ⟨⟨orderly,fun w j p at' => ?_,fun w j p at' => ?_,fun r busy => ?_,fun r busy => ?_⟩,
    fun r _ => ?_⟩
  · exact jobs j (ledger.started w j p (position ▸ at'))
  · exact ledger.iterating w j p (position ▸ at')
  · exact ledger.several r (pending ▸ busy)
  · rw [passes]
    exact ledger.booked r (pending ▸ busy)
  · simp [reduced,passes,pending]

/-- `execute_job` moves on. What it passed backward since may be pending. -/
theorem move {p : Position} (job : j ∈ s.jobs) (jobs : s'.jobs = s.jobs)
    (position : s'.position = Function.update s.position (w,j) (some p))
    (inLoop : p.InLoop (d.nIter j)) {past : Option TensorRef}
    (others : ∀ r, (r.machine,r.job) ≠ (w,j) → s'.pending r = s.pending r ∧ past ≠ some r)
    (several : ∀ t, s'.pending ⟨w,j,t⟩ = true → 1 < (d.tree j).workers.length)
    (booked : ∀ t < d.modelSize j, s'.pending ⟨w,j,t⟩ = true → 0 < p.passes (d.nIter j) t)
    (own : ∀ t < d.modelSize j, p.passes (d.nIter j) t -
      (if s'.pending ⟨w,j,t⟩ then 1 else 0) =
        s.reduced d ⟨w,j,t⟩ + if past = some ⟨w,j,t⟩ then 1 else 0) : Booked d s s' past := by
  have here : s'.position (w,j) = some p := by rw [position,Function.update_self]
  have elsewhere {v i : Nat} (other : (v,i) ≠ (w,j)) : s'.position (v,i) = s.position (v,i) := by
    rw [position,Function.update_of_ne other]
  have real (r : TensorRef) (busy : s'.pending r = true) : d.Real r :=
    orderly.elim fun _ orderly => orderly.leased.real r busy
  refine ⟨⟨orderly,fun v i q at' => ?_,fun v i q at' => ?_,fun r busy => ?_,fun r busy => ?_⟩,
    fun r exists' => ?_⟩
  · rw [jobs]
    by_cases same : (v,i) = (w,j)
    · obtain ⟨rfl,rfl⟩ := Prod.mk.inj same
      exact job
    · exact ledger.started v i q (elsewhere same ▸ at')
  · by_cases same : (v,i) = (w,j)
    · obtain ⟨rfl,rfl⟩ := Prod.mk.inj same
      cases here.symm.trans at'
      exact inLoop
    · exact ledger.iterating v i q (elsewhere same ▸ at')
  · by_cases same : (r.machine,r.job) = (w,j)
    · obtain ⟨v,i,t⟩ := r
      obtain ⟨rfl,rfl⟩ := Prod.mk.inj same
      exact several t busy
    · exact ledger.several r ((others r same).1 ▸ busy)
  · by_cases same : (r.machine,r.job) = (w,j)
    · obtain ⟨v,i,t⟩ := r
      obtain ⟨rfl,rfl⟩ := Prod.mk.inj same
      rw [passes_at here]
      exact booked t (real _ busy).2 busy
    · rw [passes_congr (elsewhere same)]
      exact ledger.booked r ((others r same).1 ▸ busy)
  · by_cases same : (r.machine,r.job) = (w,j)
    · obtain ⟨v,i,t⟩ := r
      obtain ⟨rfl,rfl⟩ := Prod.mk.inj same
      rw [reduced,passes_at here]
      exact own t exists'.2
    · rw [reduced,passes_congr (elsewhere same),(others r same).1,if_neg (others r same).2]
      rfl

theorem goto {p : Position} (job : j ∈ s.jobs) (jobs : s'.jobs = s.jobs)
    (position : s'.position = Function.update s.position (w,j) (some p))
    (inLoop : p.InLoop (d.nIter j)) (pending : s'.pending = s.pending)
    (same : ∀ t < d.modelSize j, p.passes (d.nIter j) t = s.passes d ⟨w,j,t⟩) :
    Booked d s s' none := by
  refine ledger.move orderly job jobs position inLoop (fun r _ => ⟨by rw [pending],nofun⟩)
    (fun t busy => ?_) (fun t inside busy => ?_) fun t inside => ?_
  · exact ledger.several ⟨w,j,t⟩ (pending ▸ busy)
  · rw [same t inside]
    exact ledger.booked _ (pending ▸ busy)
  · rw [same t inside,pending]
    simp [reduced]

end Ledger

theorem Ledger.idle_below (ledger : Ledger d s) (position : s.position (w,j) = some (.backward iter u))
    (real : d.Real ⟨w,j,t⟩) (below : t ≤ u) : s.pending ⟨w,j,t⟩ = false := by
  obtain ⟨extra,orderly⟩ := ledger.orderly
  have lease := orderly.leased.lease _ real
  rw [holdOf_at position,Position.hold,if_pos below] at lease
  exact (lease.of_holds Hold.noConfusion Hold.noConfusion).1

namespace Ledger
variable (keys : d.DistinctKeys) (ledger : Ledger d s)
include keys ledger

theorem elapse (taken : s.elapse d w j = some s') : Booked d s s' (s.ended d (.elapse w j)) := by
  obtain ⟨extra,orderly⟩ := ledger.orderly
  have after : ∃ extra, Orderly d anyCause s' extra := ⟨extra,orderly.elapses keys taken⟩
  unfold Training.elapse at taken
  split at taken
  · rename_i iter t position
    cases taken
    obtain ⟨p,onward,next⟩ := s.passForward_onward d w j t iter
    have ends : s.ended d (.elapse w j) = none := by simp only [ended,position]
    rw [ends]
    have now := ledger.iterating w j _ position
    refine ledger.goto after (ledger.started w j _ position) onward.jobs onward.position ?_
      (pending_passForward ..) fun u inside => ?_
    · rcases next with rfl | ⟨rfl,_⟩ <;> exact now
    · rw [passes_at position]
      rcases next with rfl | ⟨rfl,last⟩
      · rfl
      · exact if_neg (by omega)
  · rename_i iter t position
    cases taken
    obtain ⟨worker,inside⟩ := orderly.placed.within w j _ position
    have idle := ledger.idle_below position ⟨worker,inside⟩ (Nat.le_refl t)
    have now : iter < d.nIter j := ledger.iterating w j _ position
    have ends : s.ended d (.elapse w j) =
        if 1 < (d.tree j).workers.length then none else some ⟨w,j,t⟩ := by
      simp only [ended,position]
    have pending : (s.passBackward d w j iter t).pending =
        if 1 < (d.tree j).workers.length then Function.update s.pending ⟨w,j,t⟩ true
        else s.pending := by
      cases t with
      | zero => exact (pending_iterate ..).trans (s.pending_reduce d w j 0)
      | succ t => exact s.pending_reduce d w j (t + 1)
    obtain ⟨p,jobs,at',inLoop,passes⟩ := passBackward_onward position now
    rw [ends]
    refine ledger.move after (ledger.started w j _ position) jobs at' inLoop
      (fun r other => ⟨?_,?_⟩) (fun u busy => ?_) (fun u below busy => ?_) fun u below => ?_
    · have apart : r ≠ ⟨w,j,t⟩ := by
        rintro rfl
        exact other rfl
      rw [pending]
      split
      · rw [Function.update_of_ne apart]
      · rfl
    · split
      · exact nofun
      · rintro ⟨⟩
        exact other rfl
    · by_contra single
      rw [pending,if_neg single] at busy
      exact single (ledger.several _ busy)
    · rw [passes u below]
      rcases eq_or_ne u t with rfl | other
      · simp
      · have apart : (⟨w,j,u⟩ : TensorRef) ≠ ⟨w,j,t⟩ := fun same =>
          other (congrArg TensorRef.tensorId same)
        rw [pending] at busy
        have before : s.pending ⟨w,j,u⟩ = true := by
          split at busy
          · rwa [Function.update_of_ne apart] at busy
          · exact busy
        exact Nat.add_pos_left (ledger.booked _ before) _
    · rw [passes u below,pending,reduced]
      rcases eq_or_ne u t with rfl | other
      · by_cases several : 1 < (d.tree j).workers.length
        · simp [if_pos several,idle]
        · simp [if_neg several,idle]
      · have apart : (⟨w,j,u⟩ : TensorRef) ≠ ⟨w,j,t⟩ := fun same =>
          other (congrArg TensorRef.tensorId same)
        have past : (if 1 < (d.tree j).workers.length then none else some ⟨w,j,t⟩) ≠
            some (⟨w,j,u⟩ : TensorRef) := by
          split
          · exact nofun
          · rintro ⟨⟩
            exact apart rfl
        rw [if_neg other,if_neg past]
        split
        · rw [Function.update_of_ne apart]
          rfl
        · rfl
  · rename_i position
    cases taken
    have ends : s.ended d (.elapse w j) = none := by simp only [ended,position]
    rw [ends]
    exact ledger.goto after (ledger.started w j _ position) rfl rfl trivial rfl fun u _ => by
      rw [passes_at position]
      rfl
  · cases taken

theorem resumeJob (granted : .job w j ∈ s.granted)
    (taken : { s with granted := s.granted.erase (.job w j) }.resumeJob d w j = some s') :
    Booked d s s' none := by
  obtain ⟨extra,orderly⟩ := ledger.orderly
  have after : ∃ extra, Orderly d anyCause s' extra := ⟨extra,orderly.resumeJob keys granted taken⟩
  unfold Training.resumeJob at taken
  split at taken
  · rename_i iter t position
    have position : s.position (w,j) = some (.forward iter t) := position
    have now : iter < d.nIter j := ledger.iterating w j _ position
    cases taken
    exact ledger.goto after (ledger.started w j _ position) rfl rfl now rfl fun u _ =>
      (passes_at position).symm
  · rename_i t position
    have position : s.position (w,j) = some (.closing t) := position
    cases taken
    exact ledger.goto after (ledger.started w j _ position) rfl rfl trivial rfl fun u _ =>
      (passes_at position).symm
  · rename_i t position
    have position : s.position (w,j) = some (.settling t) := position
    cases taken
    obtain ⟨p,onward,ends⟩ :=
      { s with granted := s.granted.erase (.job w j) }.settle_onward d w j t
    refine ledger.goto after (ledger.started w j _ position) onward.jobs onward.position ?_
      (pending_settle ..) fun u _ => ?_
    · rcases ends with rfl | rfl <;> trivial
    · rw [passes_at position]
      rcases ends with rfl | rfl <;> rfl
  · cases taken

/-- The end of a call is the end of an iteration if the tensor is reduced completely. -/
theorem finish (member : .call r k ∈ s.granted) (second : s.stage r k = .second g) :
    Booked d s ({ s with granted := s.granted.erase (.call r k) }.finish d r k g)
      (s.ended d (.resume (.call r k))) := by
  obtain ⟨extra,orderly⟩ := ledger.orderly
  have after := orderly.finish keys member second
  obtain ⟨real,called,stage,_⟩ := orderly.leased.resumes member
  have busy : s.pending r = true :=
    (orderly.leased.lease r real).pending_of_call (by rw [stage,second]; exact nofun)
  obtain ⟨_,jobs,position,_⟩ :=
    { s with granted := s.granted.erase (.call r k) }.finish_fields d r k g
  have pending := { s with granted := s.granted.erase (.call r k) }.pending_finish d r k g
  have ends : s.ended d (.resume (.call r k)) =
      if (s.fabric.objs.tensor r).size ≤ u64 ((s.fabric.objs.tensor r).allreducedSize + g) then
        some r else none := by
    simp only [ended,second]
  rw [ends]
  split at pending
  · rename_i whole
    have whole : (s.fabric.objs.tensor r).size ≤
        u64 ((s.fabric.objs.tensor r).allreducedSize + g) := whole
    have fewer (q : TensorRef) : (Function.update s.pending r false) q = true →
        s.pending q = true := by
      rcases eq_or_ne q r with rfl | other
      · simp
      · rw [Function.update_of_ne other]
        exact id
    have passes (q : TensorRef) : Training.passes d _ q = s.passes d q :=
      passes_congr (congrFun position _)
    rw [if_pos whole]
    refine ⟨⟨⟨extra,after⟩,fun v i p at' => ?_,fun v i p at' => ?_,fun q busy => ?_,
      fun q busy => ?_⟩,fun q _ => ?_⟩
    · rw [jobs]
      exact ledger.started v i p (position ▸ at')
    · exact ledger.iterating v i p (position ▸ at')
    · exact ledger.several q (fewer q (pending ▸ busy))
    · rw [passes]
      exact ledger.booked q (fewer q (pending ▸ busy))
    · rw [reduced,reduced,passes,pending]
      rcases eq_or_ne q r with rfl | other
      · have some := ledger.booked q busy
        simp only [Function.update_self,busy,if_true]
        exact (Nat.sub_add_cancel some).symm
      · rw [Function.update_of_ne other,if_neg fun same => other (Option.some.inj same).symm]
        rfl
  · rename_i part
    have part : ¬(s.fabric.objs.tensor r).size ≤
        u64 ((s.fabric.objs.tensor r).allreducedSize + g) := part
    rw [if_neg part]
    exact ledger.keep ⟨extra,after⟩ (fun j member => by rwa [jobs]) position pending

theorem step {label : Label} (taken : step d label s = some s') :
    Booked d s s' (s.ended d label) := by
  obtain ⟨extra,orderly⟩ := ledger.orderly
  have after := orderly.step keys taken
  cases stepped taken with
  | place _ =>
    exact ledger.keep after (fun j member => List.mem_append_left _ member) rfl rfl
  | @execute j w job _ idle =>
    obtain ⟨p,onward,next⟩ := s.iterate_onward d w j 0
    have none : s.ended d (.execute w j) = none := rfl
    rw [none]
    refine ledger.goto after job onward.jobs onward.position ?_ (pending_iterate ..) fun t inside => ?_
    · rcases next with ⟨rfl,more⟩ | ⟨_,rfl | rfl⟩
      · exact more
      · trivial
      · trivial
    · have zero : s.passes d ⟨w,j,t⟩ = 0 := by simp only [passes,idle]
      rw [zero]
      rcases next with ⟨rfl,_⟩ | ⟨last,rfl | rfl⟩
      · rfl
      · exact (show d.nIter j = 0 by omega)
      · exact (show d.nIter j = 0 by omega)
  | elapse taken => exact ledger.elapse keys taken
  | job granted taken => exact ledger.resumeJob keys granted taken
  | @launch r k granted first =>
    have none : s.ended d (.resume (.call r k)) = none := by simp only [ended,first]
    rw [none]
    exact ledger.keep after (fun _ => id) rfl rfl
  | finish granted second => exact ledger.finish keys granted second
  | call _ _ _ => exact ledger.keep after (fun _ => id) rfl rfl
  | @deliver fl _ _ =>
    obtain ⟨_,jobs,position,_⟩ := s.deliver_fields d fl
    exact ledger.keep after (fun j member => by rwa [jobs]) position (s.pending_deliver d fl)

end Ledger

theorem Ledger.ended_real (ledger : Ledger d s) {label : Label}
    (taken : Training.step d label s = some s')
    (ends : s.ended d label = some r) : d.Real r ∧ r.job ∈ s.jobs := by
  obtain ⟨extra,orderly⟩ := ledger.orderly
  cases stepped taken with
  | place _ | execute _ _ _ | call _ _ _ | deliver _ _ | job _ _ => cases ends
  | elapse _ =>
    simp only [ended] at ends
    split at ends
    · rename_i position
      split at ends <;> cases ends
      exact ⟨orderly.placed.within _ _ _ position,ledger.started _ _ _ position⟩
    · cases ends
  | launch _ first => simp [ended,first] at ends
  | finish granted second =>
    simp only [ended,second] at ends
    split at ends <;> cases ends
    obtain ⟨real,called,stage,_⟩ := orderly.leased.resumes granted
    have busy : s.pending r = true :=
      (orderly.leased.lease r real).pending_of_call (by rw [stage,second]; exact nofun)
    refine ⟨real,?_⟩
    have some := ledger.booked r busy
    unfold passes at some
    split at some
    · cases some
    · rename_i position
      exact ledger.started _ _ _ position

theorem elapse_jobs (taken : s.elapse d w j = some s') : s'.jobs = s.jobs := by
  unfold elapse at taken
  split at taken
  · cases taken
    obtain ⟨_,onward,_⟩ := s.passForward_onward d w j _ _
    exact onward.jobs
  · rename_i iter t position
    cases taken
    obtain ⟨_,jobs,_⟩ := s.reduce_fields d w j t
    cases t with
    | zero =>
      obtain ⟨_,onward,_⟩ := (s.reduce d w j 0).iterate_onward d w j (iter + 1)
      exact onward.jobs.trans jobs
    | succ t => exact jobs
  · cases taken
    rfl
  · cases taken

theorem mem_jobs_of_step {label : Label} (taken : step d label s = some s') (member : j ∈ s'.jobs) :
    j ∈ s.jobs ∨ label = .place j := by
  cases stepped taken with
  | place _ =>
    rcases List.mem_append.mp member with old | new
    · exact Or.inl old
    · exact Or.inr (by rw [List.mem_singleton.mp new])
  | execute _ _ _ =>
    obtain ⟨_,onward,_⟩ := s.iterate_onward d _ _ 0
    exact Or.inl (onward.jobs ▸ member)
  | elapse taken => exact Or.inl (elapse_jobs taken ▸ member)
  | job _ taken =>
    obtain ⟨_,onward,_⟩ := resumeJob_frame taken
    exact Or.inl (onward.jobs ▸ member)
  | @finish r k g _ _ =>
    have same := ({ s with granted := s.granted.erase (.call r k) }.finish_fields d r k g).2.1
    exact Or.inl (by rwa [same] at member)
  | launch _ _ | call _ _ _ => exact Or.inl member
  | deliver _ _ => exact Or.inl ((s.deliver_fields d _).2.1 ▸ member)

theorem initial_ledger (d : Plan) : Ledger d (initial d) where
  orderly := ⟨_,initial_orderly d anyCause⟩
  started := nofun
  iterating := nofun
  several := nofun
  booked := nofun

theorem Ledger.passes_le (ledger : Ledger d s) (r : TensorRef) : s.passes d r ≤ d.nIter r.job := by
  unfold passes
  split
  · exact Nat.zero_le _
  · rename_i p position
    have now := ledger.iterating _ _ p position
    cases p <;> simp only [Position.InLoop] at now <;> simp only [Position.passes] <;>
      first | omega | (split <;> omega)

theorem Ledger.reduced_le (ledger : Ledger d s) (r : TensorRef) :
    s.reduced d r ≤ d.nIter r.job :=
  (Nat.sub_le _ _).trans (ledger.passes_le r)

theorem Ledger.reduced_gone (ledger : Ledger d s) (real : d.Real r)
    (gone : s.position (r.machine,r.job) = some .gone) : s.reduced d r = d.nIter r.job := by
  obtain ⟨extra,orderly⟩ := ledger.orderly
  have lease := orderly.leased.lease r real
  rw [show s.holdOf r = .quit by simp only [holdOf,gone]; rfl] at lease
  have idle : s.pending r = false := (lease.of_holds Hold.noConfusion Hold.noConfusion).1
  simp only [reduced,passes,gone,idle]
  rfl

/-- While a tensor is reduced, the others of its job on the worker are in the same iteration or
one ahead. -/
theorem Ledger.level (ledger : Ledger d s) (busy : s.pending ⟨w,j,t⟩ = true)
    (real : d.Real ⟨w,j,t⟩) (inside : u < d.modelSize j) :
    s.reduced d ⟨w,j,t⟩ ≤ s.reduced d ⟨w,j,u⟩ ∧
      s.reduced d ⟨w,j,u⟩ ≤ s.reduced d ⟨w,j,t⟩ + 1 := by
  have also : d.Real ⟨w,j,u⟩ := ⟨real.1,inside⟩
  have some := ledger.booked _ busy
  have most : (if s.pending ⟨w,j,u⟩ then 1 else 0) ≤ 1 := by split <;> omega
  cases position : s.position (w,j) with
  | none => simp [passes,position] at some
  | some p =>
    rw [passes_at position] at some
    rw [reduced,reduced,passes_at position,passes_at position,busy,if_pos rfl]
    cases p with
    | forward | computing | closing | settling | leaving | gone =>
      simp only [Position.passes] at some ⊢
      omega
    | backward iter x =>
      have past : x < t := by
        by_contra below
        have := ledger.idle_below position real (Nat.not_lt.mp below)
        exact Bool.false_ne_true (this.symm.trans busy)
      simp only [Position.passes,if_pos past]
      split
      · omega
      · rename_i below
        rw [ledger.idle_below position also (Nat.not_lt.mp below)]
        simp

end Training
end CloudSim
