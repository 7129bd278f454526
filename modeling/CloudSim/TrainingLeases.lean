import CloudSim.Lease

/-! Every step of the coroutines keeps the two locks of every tensor in one of the states of
`Lease`. Between two suspensions the holds of a running `execute_job` are a function `f` of the
tensor; a suspended one holds what its position says. -/
namespace CloudSim

namespace Plan
variable (d : Plan)

def Real (r : TensorRef) : Prop :=
  r.machine ∈ (d.tree r.job).workers ∧ r.tensorId < d.modelSize r.job

/-- The layers of the jobs have different 64-bit keys. -/
def DistinctKeys : Prop :=
  ∀ l m : Layer, l.2 < d.modelSize l.1 → m.2 < d.modelSize m.1 →
    d.cfg.getKey l.1 l.2 = d.cfg.getKey m.1 m.2 → l = m

variable {d} {q r : TensorRef}

theorem DistinctKeys.eq_of_key (keys : d.DistinctKeys) (real : d.Real q) (also : d.Real r)
    (machine : q.machine = r.machine) (key : q.key d.cfg = r.key d.cfg) : q = r := by
  obtain ⟨job,layer⟩ := Prod.mk.inj (keys q.layer r.layer real.2 also.2 key)
  obtain ⟨w,j,t⟩ := q
  obtain ⟨v,i,u⟩ := r
  exact TensorRef.mk.injEq .. ▸ ⟨machine,job,layer⟩

end Plan

def TensorRef.Owns (cfg : Config) (r : TensorRef) (lock : Lock) : Prop :=
  lock = r.fpLock cfg ∨ lock = r.allreduceLock cfg

theorem TensorRef.locks_ne (cfg : Config) (r : TensorRef) : r.fpLock cfg ≠ r.allreduceLock cfg := by
  intro same
  cases congrArg Lock.map same

/-- Who may wait for a lock of a tensor: its job, and the last call on it. -/
def Waiter.Of (s : Training) (r : TensorRef) (waiter : Waiter) : Prop :=
  waiter = .job r.machine r.job ∨ ∃ k, waiter = .call r k ∧ s.called r = k + 1

namespace Training

/-- The last call on a tensor was granted a lock and has not resumed. -/
def woken (s : Training) (r : TensorRef) : Bool :=
  match s.called r with
  | 0 => false
  | k + 1 => decide (.call r k ∈ s.granted)

theorem woken_iff {s : Training} {r : TensorRef} :
    s.woken r = true ↔ ∃ k, s.called r = k + 1 ∧ .call r k ∈ s.granted := by
  unfold woken
  split
  · rename_i none
    simp [none]
  · rename_i k some
    simp [some]

def Waits (s : Training) (r : TensorRef) : Prop :=
  ∃ k g, s.called r = k + 1 ∧ s.stage r k = .second g ∧ .call r k ∉ s.granted

def share (cfg : Config) (s : Training) (r : TensorRef) : Share :=
  ⟨s.pending r,s.called r,s.lastCall r,s.woken r,s.locks (r.fpLock cfg),
    s.locks (r.allreduceLock cfg)⟩

theorem share_congr {cfg : Config} {s s' : Training} {r : TensorRef}
    (pending : s'.pending r = s.pending r) (called : s'.called r = s.called r)
    (stage : s'.stage r = s.stage r)
    (granted : ∀ k, .call r k ∈ s'.granted ↔ .call r k ∈ s.granted)
    (fp : s'.locks (r.fpLock cfg) = s.locks (r.fpLock cfg))
    (allreduce : s'.locks (r.allreduceLock cfg) = s.locks (r.allreduceLock cfg)) :
    s'.share cfg r = s.share cfg r := by
  have last : s'.lastCall r = s.lastCall r := by
    simp only [lastCall,called,stage]
  have woken : s'.woken r = s.woken r := by
    simp only [Training.woken,called,granted]
  rw [share,share,pending,called,last,woken,fp,allreduce]

/-- What the position of `execute_job` says about its hold on a tensor. -/
def holdOf (s : Training) (r : TensorRef) : Hold :=
  match s.position (r.machine,r.job) with
  | none => .none
  | some p => p.hold (decide (.job r.machine r.job ∈ s.granted)) r.tensorId

abbrev Reason := TensorRef → Nat → Cause → Prop

structure Leased (d : Plan) (good : Reason) (s : Training) (hold : TensorRef → Hold)
    (extra : TensorRef → Nat) : Prop where
  lease : ∀ r, d.Real r → Lease r (extra r) (hold r) (s.share d.cfg r)
  distinct : s.granted.Nodup
  calls : ∀ r k, .call r k ∈ s.granted → s.called r = k + 1 ∧ d.Real r
  idle : ∀ r k, s.called r ≠ k + 1 → s.stage r k = .ended
  reasons : ∀ r k g, .call r k ∈ s.granted → s.stage r k = .second g →
    good r k (s.causes (.call r k))
  real : ∀ r, s.pending r = true → d.Real r
  waiters : ∀ r, d.Real r → hold r = .waits → .job r.machine r.job ∉ s.granted
  strange : ∀ lock, (∀ r, d.Real r → ¬r.Owns d.cfg lock) → (s.locks lock).evs = []

structure Apart (d : Plan) (good : Reason) (s : Training) (r : TensorRef)
    (hold : TensorRef → Hold) (extra : TensorRef → Nat) : Prop where
  lease : ∀ q, d.Real q → q ≠ r → Lease q (extra q) (hold q) (s.share d.cfg q)
  distinct : s.granted.Nodup
  calls : ∀ q k, .call q k ∈ s.granted → s.called q = k + 1 ∧ d.Real q
  idle : ∀ q k, s.called q ≠ k + 1 → s.stage q k = .ended
  reasons : ∀ q k g, .call q k ∈ s.granted → s.stage q k = .second g →
    good q k (s.causes (.call q k))
  real : ∀ q, s.pending q = true → d.Real q
  waiters : ∀ q, d.Real q → q ≠ r → hold q = .waits → .job q.machine q.job ∉ s.granted
  strange : ∀ lock, (∀ q, d.Real q → ¬q.Owns d.cfg lock) → (s.locks lock).evs = []

namespace Leased
variable {d : Plan} {good : Reason} {s s' : Training} {hold hold' : TensorRef → Hold}
  {extra extra' : TensorRef → Nat} {r : TensorRef}

theorem congr (leased : Leased d good s hold extra) (same : ∀ r, d.Real r → hold' r = hold r) :
    Leased d good s hold' extra := by
  refine { leased with lease := fun r real => ?_, waiters := fun r real waits => ?_ }
  · rw [same r real]
    exact leased.lease r real
  · exact leased.waiters r real ((same r real).symm.trans waits)

theorem apart (leased : Leased d good s hold extra) (r : TensorRef) :
    Apart d good s r hold extra where
  lease q real _ := leased.lease q real
  distinct := leased.distinct
  calls := leased.calls
  idle := leased.idle
  reasons := leased.reasons
  real := leased.real
  waiters q real _ := leased.waiters q real
  strange := leased.strange

end Leased

section answer
variable {d : Plan} {good : Reason} {s : Training} {hold hold' : TensorRef → Hold}
  {extra extra' : TensorRef → Nat} {r : TensorRef}

theorem share_other (keys : d.DistinctKeys) (real : d.Real r) {lock : Lock}
    (owns : r.Owns d.cfg lock) {result : List Waiter × Resource Waiter}
    (mine : ∀ waiter ∈ result.1, waiter.Of s r) (cause : Cause) (also : d.Real q) (other : q ≠ r) :
    (s.answer lock result cause).share d.cfg q = s.share d.cfg q := by
  have apart (map : LockMap) : (⟨map,q.machine,q.key d.cfg⟩ : Lock) ≠ lock := by
    rintro rfl
    rcases owns with same | same <;> obtain ⟨_,machine,key⟩ := Lock.mk.inj same <;>
      exact other (keys.eq_of_key also real machine key)
  refine share_congr rfl rfl rfl (fun k => ?_) (Function.update_of_ne (apart _) ..)
    (Function.update_of_ne (apart _) ..)
  simp only [answer,List.mem_append]
  refine or_iff_left fun triggered => ?_
  rcases mine _ triggered with job | ⟨i,call,_⟩
  · cases job
  · exact other (Waiter.call.inj call).1

/-- A lock of a tensor has been answered, and the tensor is in a state of `Lease` again. -/
theorem Apart.answer (keys : d.DistinctKeys) (leased : Apart d good s r hold extra)
    (real : d.Real r)
    {lock : Lock} (owns : r.Owns d.cfg lock) {result : List Waiter × Resource Waiter}
    (mine : ∀ waiter ∈ result.1, waiter.Of s r) (fresh : (s.granted ++ result.1).Nodup)
    {cause : Cause}
    (reason : ∀ k g, .call r k ∈ result.1 → s.stage r k = .second g → good r k cause)
    (holds : ∀ q, d.Real q → q ≠ r → hold' q = hold q)
    (extras : ∀ q, q ≠ r → extra' q = extra q)
    (here : Lease r (extra' r) (hold' r) ((s.answer lock result cause).share d.cfg r))
    (waits : hold' r = .waits → .job r.machine r.job ∉ s.granted ++ result.1)
    (alone : .job r.machine r.job ∈ result.1 → ∀ q, d.Real q → q ≠ r → q.machine = r.machine →
      q.job = r.job → hold q ≠ .waits) :
    Leased d good (s.answer lock result cause) hold' extra' where
  lease q also := by
    rcases eq_or_ne q r with rfl | other
    · exact here
    · rw [share_other keys real owns mine cause also other,holds q also other,extras q other]
      exact leased.lease q also other
  distinct := fresh
  calls q k member := by
    rcases List.mem_append.mp member with old | new
    · exact leased.calls q k old
    · rcases mine _ new with job | ⟨i,call,called⟩
      · cases job
      · obtain ⟨rfl,rfl⟩ := Waiter.call.inj call
        exact ⟨called,real⟩
  idle := leased.idle
  reasons q k g member second := by
    have causes : (s.answer lock result cause).causes (.call q k) =
        if .call q k ∈ result.1 then cause else s.causes (.call q k) := rfl
    rw [causes]
    split
    · rename_i new
      rcases mine _ new with job | ⟨i,call,_⟩
      · cases job
      · obtain ⟨rfl,rfl⟩ := Waiter.call.inj call
        exact reason k g new second
    · rename_i old
      exact leased.reasons q k g ((List.mem_append.mp member).resolve_right old) second
  real := leased.real
  strange other none := by
    have apart : other ≠ lock := fun same => none r real (same ▸ owns)
    rw [show (s.answer lock result cause).locks other = s.locks other from
      Function.update_of_ne apart ..]
    exact leased.strange other none
  waiters q also asks := by
    rcases eq_or_ne q r with rfl | other
    · exact waits asks
    · rw [holds q also other] at asks
      intro member
      rcases List.mem_append.mp member with old | new
      · exact leased.waiters q also other asks old
      · rcases mine _ new with job | ⟨_,call,_⟩
        · obtain ⟨machine,same⟩ := Waiter.job.inj job
          rw [machine,same] at new
          exact alone new q also other machine same asks
        · cases call

end answer

section share
variable {cfg : Config} {s : Training} {r : TensorRef} {result : List Waiter × Resource Waiter}

theorem share_fp (jobs : ∀ k, .call r k ∉ result.1) (cause : Cause) :
    (s.answer (r.fpLock cfg) result cause).share cfg r =
      { s.share cfg r with fp := result.2 } := by
  have woken : (s.answer (r.fpLock cfg) result cause).woken r = s.woken r := by
    simp [Training.woken,answer,jobs]
  have allreduce : (s.answer (r.fpLock cfg) result cause).locks (r.allreduceLock cfg) =
      s.locks (r.allreduceLock cfg) :=
    Function.update_of_ne (r.locks_ne cfg).symm result.2 s.locks
  rw [share,woken,allreduce]
  simp only [answer,Function.update_self]
  rfl

/-- An answer of the second lock changes what is known of this lock, and may wake the last call. -/
theorem share_answer (result : List Waiter × Resource Waiter) (cause : Cause) :
    (s.answer (r.allreduceLock cfg) result cause).share cfg r =
      { s.share cfg r with
        woken := (s.answer (r.allreduceLock cfg) result cause).woken r
        allreduce := result.2 } := by
  have fp : (s.answer (r.allreduceLock cfg) result cause).locks (r.fpLock cfg) =
      s.locks (r.fpLock cfg) :=
    Function.update_of_ne (r.locks_ne cfg) result.2 s.locks
  rw [share,fp]
  simp only [answer,Function.update_self]
  rfl

theorem share_allreduce (jobs : ∀ k, .call r k ∉ result.1) (cause : Cause) :
    (s.answer (r.allreduceLock cfg) result cause).share cfg r =
      { s.share cfg r with allreduce := result.2 } := by
  have woken : (s.answer (r.allreduceLock cfg) result cause).woken r = s.woken r := by
    simp [Training.woken,answer,jobs]
  rw [share_answer,woken]
  rfl

theorem share_wake (cfg : Config) {k : Nat} (called : s.called r = k + 1)
    (triggered : result.1 = [.call r k]) (cause : Cause) :
    (s.answer (r.allreduceLock cfg) result cause).share cfg r =
      { s.share cfg r with woken := true, allreduce := result.2 } := by
  have woken : (s.answer (r.allreduceLock cfg) result cause).woken r = true := by
    simp [Training.woken,answer,called,triggered]
  rw [share_answer,woken]

end share

section calls
variable {d : Plan} {good : Reason} {s : Training} {hold : TensorRef → Hold}
  {extra : TensorRef → Nat} {r : TensorRef}

/-- A new call of `allreduce` has its lock at once. -/
theorem Leased.call (keys : d.DistinctKeys) (leased : Leased d good s hold extra)
    (pending : s.pending r = true) (quiet : s.lastCall r = .ended) :
    Leased d good (s.callAllreduce d r) hold extra ∧
      (s.callAllreduce d r).granted = s.granted ++ [.call r (s.called r)] := by
  have real := leased.real r pending
  have none (k : Nat) : .call r k ∉ s.granted := by
    intro member
    have woken : s.woken r = true := woken_iff.mpr ⟨k,(leased.calls r k member).1,member⟩
    exact Bool.false_ne_true (((leased.lease r real).asleep quiet).symm.trans woken)
  obtain ⟨triggered,first⟩ := (leased.lease r real).call pending quiet
  change ((s.locks (r.allreduceLock d.cfg)).request (.call r (s.called r))).1 = [_] at triggered
  let s₁ : Training :=
    { s.setStage r (s.called r) .first with
      called := Function.update s.called r (s.called r + 1) }
  have called : s₁.called r = s.called r + 1 := Function.update_self ..
  have last : s₁.lastCall r = .first := by
    rw [lastCall,called]
    simp [s₁,setStage]
  have elsewhere (q : TensorRef) (other : q ≠ r) :
      s₁.called q = s.called q ∧ s₁.stage q = s.stage q :=
    ⟨Function.update_of_ne other ..,Function.update_of_ne other ..⟩
  have apart : Apart d good s₁ r hold extra := by
    refine
      { leased.apart r with
        lease := fun q also other => ?_
        calls := fun q k member => ?_
        idle := fun q k later => ?_
        reasons := fun q k g member second => ?_ }
    · have same : s₁.share d.cfg q = s.share d.cfg q :=
        share_congr rfl (elsewhere q other).1 (elsewhere q other).2 (fun _ => Iff.rfl) rfl rfl
      rw [same]
      exact leased.lease q also
    · have other : q ≠ r := by rintro rfl; exact none k member
      rw [(elsewhere q other).1]
      exact leased.calls q k member
    · rcases eq_or_ne q r with rfl | other
      · rw [called,ne_eq,Nat.add_right_cancel_iff] at later
        have stage : s₁.stage q k = s.stage q k := by
          simp only [s₁,setStage,Function.update_self]
          exact Function.update_of_ne (Ne.symm later) ..
        rw [stage]
        by_cases before : s.called q = k + 1
        · rw [lastCall,before] at quiet
          exact quiet
        · exact leased.idle q k before
      · rw [(elsewhere q other).1] at later
        rw [(elsewhere q other).2]
        exact leased.idle q k later
    · have other : q ≠ r := by rintro rfl; exact none k member
      rw [(elsewhere q other).2] at second
      exact leased.reasons q k g member second
  have mine : ∀ waiter ∈ ((s.locks (r.allreduceLock d.cfg)).request (.call r (s.called r))).1,
      waiter.Of s₁ r := by
    rw [triggered]
    intro waiter member
    exact Or.inr ⟨_,List.mem_singleton.mp member,called⟩
  refine ⟨apart.answer keys real (Or.inr rfl) mine ?_ (fun k g new second => ?_) (fun _ _ _ => rfl)
    (fun _ _ => rfl) ?_ ?_ ?_,congrArg (s.granted ++ ·) triggered⟩
  · rw [triggered]
    refine List.nodup_append.mpr ⟨leased.distinct,List.nodup_singleton _,fun a old b new same => ?_⟩
    exact none _ (List.mem_singleton.mp new ▸ same ▸ old)
  · rw [triggered] at new
    obtain ⟨_,rfl⟩ := Waiter.call.inj (List.mem_singleton.mp new)
    have stage : s₁.stage r (s.called r) = .first := by simp [s₁,setStage]
    cases stage.symm.trans second
  · rw [share_wake d.cfg called triggered]
    convert first using 1
    rw [share,called,last]
    rfl
  · intro waits
    rw [triggered]
    intro member
    rcases List.mem_append.mp member with old | new
    · exact leased.waiters r real waits old
    · cases List.mem_singleton.mp new
  · rw [triggered]
    intro member
    cases List.mem_singleton.mp member

def resumed (s : Training) (r : TensorRef) (k : Nat) (fabric : Fabric) (stage : Suspension) :
    Training :=
  { s with granted := s.granted.erase (.call r k), fabric := fabric }.setStage r k stage

section resumed
variable {k : Nat} (leased : Leased d good s hold extra) (member : .call r k ∈ s.granted)
include leased member

theorem Leased.resumed (fabric : Fabric) (stage : Suspension) :
    Apart d good (s.resumed r k fabric stage) r hold extra ∧
      (s.resumed r k fabric stage).share d.cfg r =
        { s.share d.cfg r with call := stage, woken := false } := by
  set s₁ := s.resumed r k fabric stage with definition
  obtain ⟨called,_⟩ := leased.calls r k member
  have elsewhere (q : TensorRef) (other : q ≠ r) : s₁.stage q = s.stage q :=
    Function.update_of_ne other ..
  constructor
  · refine
      { leased.apart r with
        lease := fun q also other => ?_
        distinct := leased.distinct.erase _
        calls := fun q i kept => leased.calls q i (List.mem_of_mem_erase kept)
        idle := fun q i later => ?_
        reasons := fun q i g kept second => ?_
        waiters := fun q also _ waits kept =>
          leased.waiters q also waits (List.mem_of_mem_erase kept) }
    · have same : s₁.share d.cfg q = s.share d.cfg q := by
        refine share_congr rfl rfl (elsewhere q other) (fun i => ?_) rfl rfl
        exact List.mem_erase_of_ne fun equal => other (Waiter.call.inj equal).1
      rw [same]
      exact leased.lease q also
    · rcases eq_or_ne q r with rfl | other
      · have apart : i ≠ k := fun same => later (same ▸ called)
        have stage : s₁.stage q i = s.stage q i := by
          simp only [s₁,Training.resumed,setStage,Function.update_self]
          exact Function.update_of_ne apart ..
        rw [stage]
        exact leased.idle q i later
      · rw [elsewhere q other]
        exact leased.idle q i later
    · have other : q ≠ r := by
        rintro rfl
        obtain rfl : i = k :=
          Nat.succ.inj ((leased.calls q i (List.mem_of_mem_erase kept)).1.symm.trans called)
        exact leased.distinct.not_mem_erase kept
      rw [elsewhere q other] at second
      exact leased.reasons q i g (List.mem_of_mem_erase kept) second
  · have last : s₁.lastCall r = stage := by
      have stage : s₁.stage r k = stage := by
        simp only [s₁,Training.resumed,setStage,Function.update_self]
      simp only [lastCall,show s₁.called r = k + 1 from called,stage]
    have woken : s₁.woken r = false := by
      rw [Bool.eq_false_iff,ne_eq,woken_iff]
      rintro ⟨i,same,kept⟩
      obtain rfl : i = k := Nat.succ.inj (same.symm.trans called)
      exact leased.distinct.not_mem_erase kept
    rw [share,last,woken]
    rfl

/-- The call is the last one on its tensor, and it is awake. -/
theorem Leased.resumes : d.Real r ∧ (s.share d.cfg r).called = k + 1 ∧
    (s.share d.cfg r).call = s.stage r k ∧ (s.share d.cfg r).woken = true := by
  obtain ⟨called,real⟩ := leased.calls r k member
  refine ⟨real,called,?_,woken_iff.mpr ⟨k,called,member⟩⟩
  simp only [share,lastCall,called]

end resumed

section keys
variable (keys : d.DistinctKeys) {k : Nat} (leased : Leased d good s hold extra)
  (member : .call r k ∈ s.granted)
include keys leased member

/-- The call requests its lock again. It waits, unless a release was left over. -/
theorem Leased.again (first : s.stage r k = .first) (left : extra r ≠ 0 → good r k .request)
    (fabric : Fabric) (g : Nat) :
    let s' := (s.resumed r k fabric (.second g)).request (r.allreduceLock d.cfg) (.call r k)
    Leased d good s' hold (Function.update extra r (extra r - 1)) ∧
      s'.granted = s.granted.erase (.call r k) ++ if extra r = 0 then [] else [.call r k] := by
  obtain ⟨real,called,stage,_⟩ := leased.resumes member
  obtain ⟨i,count,triggered,lease⟩ := (leased.lease r real).launch (stage.trans first) g
  obtain rfl : i = k := Nat.succ.inj (count.symm.trans called)
  obtain ⟨apart,share⟩ := leased.resumed member fabric (.second g)
  rw [show (s.share d.cfg r).allreduce = s.locks (r.allreduceLock d.cfg) from rfl]
    at triggered lease
  have gone : .call r i ∉ s.granted.erase (.call r i) := leased.distinct.not_mem_erase
  have jobs (waiter : Waiter)
      (new : waiter ∈ ((s.locks (r.allreduceLock d.cfg)).request (.call r i)).1) :
      waiter = .call r i := by
    rw [triggered] at new
    split at new
    · cases new
    · exact List.mem_singleton.mp new
  refine ⟨apart.answer keys real (Or.inr rfl) (fun waiter new => Or.inr ⟨i,jobs waiter new,called⟩)
    ?_ (fun j g new _ => ?_) (fun _ _ _ => rfl) (fun q other => Function.update_of_ne other ..)
    ?_ ?_ ?_,
    congrArg (s.granted.erase (.call r i) ++ ·) triggered⟩
  · refine List.nodup_append.mpr ⟨leased.distinct.erase _,?_,fun a old b new same => ?_⟩
    · rw [triggered]
      split
      · exact List.nodup_nil
      · exact List.nodup_singleton _
    · have old : a ∈ s.granted.erase (.call r i) := old
      rw [same,jobs b new] at old
      exact gone old
  · obtain ⟨_,rfl⟩ := Waiter.call.inj (jobs _ new)
    refine left fun none => ?_
    rw [triggered,if_pos none] at new
    cases new
  · rw [Function.update_self]
    rcases Nat.eq_zero_or_pos (extra r) with none | some
    · rw [if_pos none] at triggered
      rw [share_allreduce (fun j new => by
        have new : .call r j ∈ ((s.locks (r.allreduceLock d.cfg)).request (.call r i)).1 := new
        rw [triggered] at new; cases new),share]
      simpa [none] using lease
    · have spare : extra r ≠ 0 := some.ne'
      rw [if_neg spare] at triggered
      have after : (s.resumed r i fabric (.second g)).called r = i + 1 := called
      have woken := share_wake d.cfg after triggered .request
      rw [share] at woken
      rw [decide_eq_true spare] at lease
      exact woken ▸ lease
  · intro waits old
    rcases List.mem_append.mp old with before | new
    · exact leased.waiters r real waits (List.mem_of_mem_erase before)
    · cases jobs _ new
  · intro new
    cases jobs _ new

theorem Leased.ends (second : s.stage r k = .second g) (fabric : Fabric) (cause : Cause) :
    let s' := (s.resumed r k fabric .ended).release (r.allreduceLock d.cfg) cause
    Leased d good s' hold extra ∧ s'.granted = s.granted.erase (.call r k) := by
  obtain ⟨real,called,stage,woken⟩ := leased.resumes member
  obtain ⟨triggered,lease⟩ := (leased.lease r real).finish (stage.trans second) woken
  obtain ⟨apart,share⟩ := leased.resumed member fabric .ended
  rw [show (s.share d.cfg r).allreduce = s.locks (r.allreduceLock d.cfg) from rfl]
    at triggered lease
  have none (waiter : Waiter) : waiter ∉ (s.locks (r.allreduceLock d.cfg)).release.1 := by
    rw [triggered]
    exact List.not_mem_nil
  refine ⟨apart.answer keys real (Or.inr rfl) (fun waiter new => absurd new (none waiter)) ?_
    (fun _ _ new _ => absurd new (none _)) (fun _ _ _ => rfl) (fun _ _ => rfl) ?_ ?_
    (fun new => absurd new (none _)),
    (congrArg (s.granted.erase (.call r k) ++ ·) triggered).trans (List.append_nil _)⟩
  · change (s.granted.erase _ ++ (s.locks (r.allreduceLock d.cfg)).release.1).Nodup
    rw [triggered,List.append_nil]
    exact leased.distinct.erase _
  · rw [share_allreduce (fun j => none _),share]
    exact lease
  · intro waits old
    rcases List.mem_append.mp old with before | new
    · exact leased.waiters r real waits (List.mem_of_mem_erase before)
    · exact none _ new

omit member in
/-- The tensor is reduced completely, and a forward pass that waits for it is woken. -/
theorem Leased.reduced (pending : s.pending r = true) (quiet : s.lastCall r = .ended)
    (single : ∀ q, d.Real q → q ≠ r → q.machine = r.machine → q.job = r.job →
      hold r = .waits → hold q ≠ .waits) (cause : Cause) :
    let s' := { s with pending := Function.update s.pending r false }.release (r.fpLock d.cfg) cause
    Leased d good s' (Function.update hold r (if hold r = .waits then .holds else hold r)) extra ∧
      s'.granted = s.granted ++ if hold r = .waits then [.job r.machine r.job] else [] := by
  have real := leased.real r pending
  have lease := (leased.lease r real).reduced pending quiet
  rw [show (s.share d.cfg r).fp = s.locks (r.fpLock d.cfg) from rfl] at lease
  let s₁ : Training := { s with pending := Function.update s.pending r false }
  have apart : Apart d good s₁ r hold extra := by
    refine { leased.apart r with lease := fun q also other => ?_, real := fun q some => ?_ }
    · have same : s₁.share d.cfg q = s.share d.cfg q :=
        share_congr (Function.update_of_ne other ..) rfl rfl (fun _ => Iff.rfl) rfl rfl
      rw [same]
      exact leased.lease q also
    · rcases eq_or_ne q r with rfl | other
      · exact real
      · exact leased.real q ((Function.update_of_ne other ..).symm.trans some)
  have jobs (waiter : Waiter) (new : waiter ∈ (s.locks (r.fpLock d.cfg)).release.1) :
      waiter = .job r.machine r.job ∧ hold r = .waits := by
    rcases lease with ⟨_,triggered,_⟩ | ⟨waits,triggered,_⟩ <;> rw [triggered] at new
    · cases new
    · exact ⟨List.mem_singleton.mp new,waits⟩
  have events : (s.locks (r.fpLock d.cfg)).release.1 =
      if hold r = .waits then [.job r.machine r.job] else [] := by
    rcases lease with ⟨idle,triggered,_⟩ | ⟨waits,triggered,_⟩
    · rw [if_neg (by rw [idle]; exact Hold.noConfusion),triggered]
    · rw [if_pos waits,triggered]
  refine ⟨apart.answer keys real (Or.inl rfl) (fun waiter new => Or.inl (jobs waiter new).1) ?_
    (fun _ _ new _ => by cases (jobs _ new).1) (fun q _ other => Function.update_of_ne other ..)
    (fun _ _ => rfl) ?_ ?_ ?_,
    congrArg (s.granted ++ ·) events⟩
  · change (s.granted ++ (s.locks (r.fpLock d.cfg)).release.1).Nodup
    refine List.nodup_append.mpr ⟨leased.distinct,?_,fun a old b new same => ?_⟩
    · rcases lease with ⟨_,triggered,_⟩ | ⟨_,triggered,_⟩ <;> rw [triggered]
      · exact List.nodup_nil
      · exact List.nodup_singleton _
    · obtain ⟨job,waits⟩ := jobs b new
      exact leased.waiters r real waits (job ▸ same ▸ old)
  · rw [share_fp (fun j new => by cases (jobs _ new).1),Function.update_self]
    have cleared : s₁.share d.cfg r = { s.share d.cfg r with pending := false } := by
      simp only [s₁,Training.share,Function.update_self]
      rfl
    rw [cleared]
    rcases lease with ⟨idle,_,lease⟩ | ⟨waits,_,lease⟩
    · rw [idle]; exact lease
    · rw [waits]; exact lease
  · rw [Function.update_self]
    split
    · intro same; cases same
    · rename_i apart; exact fun same => absurd same apart
  · exact fun new q also other machine job => single q also other machine job (jobs _ new).2

end keys

theorem Leased.packet_wakes (keys : d.DistinctKeys) (leased : Leased d good s hold extra)
    (real : d.Real q) {i : Nat} (cause : Cause)
    (called : s.called q = i + 1) (asleep : s.woken q = false)
    (triggered : (s.locks (q.allreduceLock d.cfg)).release.1 = [.call q i])
    (fits : good q i cause)
    (lease : Lease q (extra q) (hold q) { s.share d.cfg q with
      woken := true, allreduce := (s.locks (q.allreduceLock d.cfg)).release.2 }) :
    Leased d good (s.release (q.allreduceLock d.cfg) cause) hold extra := by
  refine (leased.apart q).answer keys real (Or.inr rfl) ?_ ?_ (fun k g new second => ?_)
    (fun _ _ _ => rfl) (fun _ _ => rfl) ?_ ?_ ?_
  · rw [triggered]
    exact fun waiter new => Or.inr ⟨i,List.mem_singleton.mp new,called⟩
  · rw [triggered]
    refine List.nodup_append.mpr ⟨leased.distinct,List.nodup_singleton _,
      fun a old b new same => ?_⟩
    have woken : s.woken q = true :=
      woken_iff.mpr ⟨i,called,List.mem_singleton.mp new ▸ same ▸ old⟩
    exact Bool.false_ne_true (asleep.symm.trans woken)
  · rw [triggered] at new
    obtain ⟨_,rfl⟩ := Waiter.call.inj (List.mem_singleton.mp new)
    exact fits
  · rw [share_wake d.cfg called triggered]
    exact lease
  · rw [triggered]
    intro waits old
    rcases List.mem_append.mp old with before | new
    · exact leased.waiters q real waits before
    · cases List.mem_singleton.mp new
  · rw [triggered]
    intro new
    cases List.mem_singleton.mp new

/-- No call waits for the lock, so the release is left for the next one. -/
theorem Leased.packet_gives (keys : d.DistinctKeys) (leased : Leased d good s hold extra)
    (real : d.Real q) (cause : Cause)
    (triggered : (s.locks (q.allreduceLock d.cfg)).release.1 = [])
    (lease : Lease q (extra q + 1) (hold q) { s.share d.cfg q with
      allreduce := (s.locks (q.allreduceLock d.cfg)).release.2 }) :
    Leased d good (s.release (q.allreduceLock d.cfg) cause) hold
      (Function.update extra q (extra q + 1)) := by
  have none (waiter : Waiter) : waiter ∉ (s.locks (q.allreduceLock d.cfg)).release.1 := by
    rw [triggered]
    exact List.not_mem_nil
  refine (leased.apart q).answer keys real (Or.inr rfl)
    (fun waiter new => absurd new (none waiter)) ?_ (fun _ _ new _ => absurd new (none _))
    (fun _ _ _ => rfl) (fun q other => Function.update_of_ne other ..) ?_ ?_
    (fun new => absurd new (none _))
  · rw [triggered,List.append_nil]
    exact leased.distinct
  · rw [share_allreduce (fun j => none _),Function.update_self]
    exact lease
  · intro waits old
    rcases List.mem_append.mp old with before | new
    · exact leased.waiters q real waits before
    · exact none _ new

theorem Leased.packet_strange (leased : Leased d good s hold extra) (lock : Lock) (cause : Cause)
    (strange : ∀ q, d.Real q → ¬q.Owns d.cfg lock) :
    Leased d good (s.release lock cause) hold extra ∧ (s.locks lock).release.1 = [] := by
  have bare : (s.locks lock).evs = [] := leased.strange lock strange
  have answer : (s.locks lock).release = ([],{ available := (s.locks lock).available + 1 }) := by
    rw [Resource.release,bare]
    rfl
  have apart (q : TensorRef) (real : d.Real q) (other : Lock) (owns : q.Owns d.cfg other) :
      (s.release lock cause).locks other = s.locks other :=
    Function.update_of_ne (fun same => strange q real (by rwa [← same])) ..
  have granted : (s.release lock cause).granted = s.granted := by
    rw [release,answer]
    exact List.append_nil _
  refine ⟨⟨?_,?_,?_,leased.idle,fun q k g => ?_,leased.real,?_,fun other none => ?_⟩,?_⟩
  · intro q real
    have same : (s.release lock cause).share d.cfg q = s.share d.cfg q :=
      share_congr rfl rfl rfl (fun _ => by rw [granted]) (apart q real _ (Or.inl rfl))
        (apart q real _ (Or.inr rfl))
    rw [same]
    exact leased.lease q real
  · rw [granted]; exact leased.distinct
  · rw [granted]; exact leased.calls
  · have causes : (s.release lock cause).causes = s.causes := by
      rw [release,answer]
      rfl
    rw [granted,causes]
    exact leased.reasons q k g
  · rw [granted]; exact leased.waiters
  · rw [release,answer,Training.answer]
    rcases eq_or_ne other lock with rfl | away
    · dsimp only
      rw [Function.update_self]
    · dsimp only
      rw [Function.update_of_ne away]
      exact leased.strange other none
  · rw [answer]

/-- A packet releases a lock of `allreduce`. Nothing is left over if a call waits for it. -/
theorem Leased.packet (keys : d.DistinctKeys) (leased : Leased d good s hold extra) (lock : Lock)
    (map : lock.map = .allreduceLocks) (cause : Cause)
    (fits : ∀ q k g, d.Real q → lock = q.allreduceLock d.cfg → s.called q = k + 1 →
      s.stage q k = .second g → good q k cause) :
    ∃ extra', Leased d good (s.release lock cause) hold extra' ∧
      (∀ waiter ∈ (s.locks lock).release.1, ∃ q k g, waiter = .call q k ∧
        lock = q.allreduceLock d.cfg ∧ d.Real q ∧ s.called q = k + 1 ∧ s.stage q k = .second g) ∧
      ((∀ q, d.Real q → lock = q.allreduceLock d.cfg → s.Waits q) → extra' = extra) := by
  by_cases owned : ∃ q, d.Real q ∧ q.Owns d.cfg lock
  · obtain ⟨q,real,owns⟩ := owned
    obtain rfl : lock = q.allreduceLock d.cfg := by
      rcases owns with rfl | same
      · cases map
      · exact same
    have lease := (leased.lease q real).packet
    rw [show (s.share d.cfg q).allreduce = s.locks (q.allreduceLock d.cfg) from rfl] at lease
    rcases lease with ⟨i,g,called,second,asleep,triggered,lease⟩ | ⟨triggered,awake,lease⟩
    · have called : s.called q = i + 1 := called
      have stage : s.stage q i = .second g := by
        have last : s.lastCall q = .second g := second
        simpa only [lastCall,called] using last
      refine ⟨extra,leased.packet_wakes keys real cause called asleep triggered
        (fits q i g real rfl called stage) lease,fun waiter new => ?_,fun _ => rfl⟩
      rw [triggered] at new
      exact ⟨q,i,g,List.mem_singleton.mp new,rfl,real,called,stage⟩
    · refine ⟨_,leased.packet_gives keys real cause triggered lease,fun waiter new => ?_,
        fun waits => ?_⟩
      · rw [triggered] at new
        cases new
      · obtain ⟨k,g,called,stage,asleep⟩ := waits q real rfl
        have last : s.lastCall q = .second g := by simpa only [lastCall,called] using stage
        obtain ⟨i,count,woken⟩ := woken_iff.mp (awake g last)
        obtain rfl : i = k := Nat.succ.inj (count.symm.trans called)
        exact absurd woken asleep
  · obtain ⟨kept,none⟩ := leased.packet_strange lock cause fun q real owns => owned ⟨q,real,owns⟩
    refine ⟨extra,kept,fun waiter new => ?_,fun _ => rfl⟩
    rw [none] at new
    cases new

end calls
end Training
end CloudSim
