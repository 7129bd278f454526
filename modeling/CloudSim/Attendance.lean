import CloudSim.Barrier
import CloudSim.Ledger

/-! Nobody who could go on is forgotten, in runs without a collective scheduler: a tensor that is
pending has a call on it, and a call that has its results has been granted its lock. -/
namespace CloudSim
namespace Training

section granted
variable (d : Plan) (s : Training) (w j t iter : Nat)

theorem granted_close : s.granted ⊆ (s.close d w j t).granted := by
  unfold close
  split
  · exact List.subset_append_left ..
  · exact List.Subset.refl _

theorem granted_iterate : s.granted ⊆ (s.iterate d w j iter).granted := by
  unfold iterate
  split
  · exact List.subset_append_left ..
  · exact s.granted_close d w j 0

theorem granted_passForward : s.granted ⊆ (s.passForward d w j iter t).granted := by
  unfold passForward
  split
  · exact List.subset_append_left ..
  · exact List.Subset.refl _

theorem granted_reduce : s.granted ⊆ (s.reduce d w j t).granted := by
  unfold reduce
  split
  · split
    · exact List.Subset.refl _
    · exact List.subset_append_left ..
  · exact List.subset_append_left ..

theorem granted_settle : s.granted ⊆ (s.settle d w j t).granted := by
  have both : s.granted ⊆
      ((s.release ((⟨w,j,t⟩ : TensorRef).fpLock d.cfg) (.coroutine (.job w j))).release
        ((⟨w,j,t⟩ : TensorRef).allreduceLock d.cfg) (.coroutine (.job w j))).granted :=
    List.Subset.trans (List.subset_append_left ..) (List.subset_append_left ..)
  exact List.Subset.trans both (granted_close ..)

theorem granted_finish (r : TensorRef) (k gradSize : Nat) :
    s.granted ⊆ (s.finish d r k gradSize).granted := by
  dsimp only [finish]
  split
  · exact List.Subset.trans (List.subset_append_left ..) (List.subset_append_left ..)
  · exact List.subset_append_left ..

theorem granted_deliver (fl : Flight) : s.granted ⊆ (s.deliver d fl).granted := by
  dsimp only [deliver]
  split
  · exact List.Subset.refl _
  · exact List.Subset.refl _
  · split
    · exact List.subset_append_left ..
    · exact List.Subset.refl _

end granted

/-- Who goes on next is known: the last loop has the second lock at once, a pending tensor has a
call on it, and a call all of whose results have arrived is awake. -/
structure Attended (s : Training) : Prop where
  settling : ∀ w j t, s.position (w,j) = some (.settling t) → .job w j ∈ s.granted
  busy : ∀ r, s.pending r = true → s.lastCall r ≠ .ended
  answered : ∀ r, s.lastCall r ≠ .ended → s.fabric.done r = s.called r → s.woken r = true

variable {d : Plan} {exact : Prop} {lad : Ladders} {s s' : Training} {w j t k : Nat} {r : TensorRef}

theorem woken_of_subset (called : s'.called r = s.called r)
    (granted : ∀ k, .call r k ∈ s.granted → .call r k ∈ s'.granted) (woken : s.woken r = true) :
    s'.woken r = true := by
  obtain ⟨k,count,member⟩ := woken_iff.mp woken
  exact woken_iff.mpr ⟨k,called.trans count,granted k member⟩

theorem stage_reduce (direct : d.scheduled = false) (several : 1 < (d.tree j).workers.length) :
    (s.reduce d w j t).stage = (s.setStage ⟨w,j,t⟩ (s.called ⟨w,j,t⟩) .first).stage := by
  unfold Training.reduce
  dsimp only
  rw [if_pos several,direct]
  rfl

namespace Attended
variable (attended : Attended s)
include attended

/-- `execute_job` of `w` for `j` moves on, and no call does. -/
theorem goto {p : Position} (fabric : s'.fabric = s.fabric) (pending : s'.pending = s.pending)
    (called : s'.called = s.called) (stage : s'.stage = s.stage)
    (granted : ∀ waiter, waiter ≠ .job w j → waiter ∈ s.granted → waiter ∈ s'.granted)
    (position : s'.position = Function.update s.position (w,j) (some p))
    (settles : ∀ t, p = .settling t → .job w j ∈ s'.granted) : Attended s' := by
  have last (q : TensorRef) : s'.lastCall q = s.lastCall q := by simp only [lastCall,called,stage]
  refine ⟨fun v i t at' => ?_,fun q => ?_,fun q busy done => ?_⟩
  · rw [position] at at'
    rcases eq_or_ne (v,i) (w,j) with same | other
    · obtain ⟨rfl,rfl⟩ := Prod.mk.inj same
      rw [Function.update_self] at at'
      exact settles t (Option.some.inj at')
    · rw [Function.update_of_ne other] at at'
      refine granted _ (fun same => other ?_) (attended.settling v i t at')
      obtain ⟨rfl,rfl⟩ := Waiter.job.inj same
      rfl
  · rw [pending,last]
    exact attended.busy q
  · rw [last] at busy
    rw [fabric,called] at done
    exact woken_of_subset (by rw [called]) (fun k => granted _ Waiter.noConfusion)
      (attended.answered q busy done)

theorem onward {p : Position} (onward : Onward s s' w j p) (pending : s'.pending = s.pending)
    (granted : s.granted ⊆ s'.granted) (stays : ∀ t, p ≠ .settling t) : Attended s' :=
  attended.goto onward.fabric pending onward.called onward.stage
    (fun _ _ member => granted member) onward.position fun t same => absurd same (stays t)

/-- The last call on `r` goes on to `now`. -/
theorem move {now : Suspension} (calls : s.called r = k + 1) (called : s'.called = s.called)
    (stage : s'.stage = (s.setStage r k now).stage) (position : s'.position = s.position)
    (done : s'.fabric.done = s.fabric.done)
    (granted : ∀ waiter, waiter ≠ .call r k → waiter ∈ s.granted → waiter ∈ s'.granted)
    (pending : ∀ q, s'.pending q = true → s.pending q = true ∧ (q = r → now ≠ .ended))
    (answered : now ≠ .ended → s.fabric.done r ≠ k + 1) : Attended s' := by
  have here : s'.lastCall r = now := by
    simp only [lastCall,called,calls,stage,setStage,Function.update_self]
  have away (q : TensorRef) (other : q ≠ r) : s'.lastCall q = s.lastCall q := by
    simp only [lastCall,called,stage,setStage,Function.update_of_ne other]
  refine ⟨fun v i t at' => ?_,fun q waits => ?_,fun q busy all => ?_⟩
  · rw [position] at at'
    exact granted _ Waiter.noConfusion (attended.settling v i t at')
  · obtain ⟨before,open'⟩ := pending q waits
    rcases eq_or_ne q r with rfl | other
    · rw [here]
      exact open' rfl
    · rw [away q other]
      exact attended.busy q before
  · rw [done,called] at all
    rcases eq_or_ne q r with rfl | other
    · rw [here] at busy
      exact absurd (all.trans calls) (answered busy)
    · rw [away q other] at busy
      refine woken_of_subset (by rw [called]) (fun i => granted _ fun same => ?_)
        (attended.answered q busy all)
      exact other (Waiter.call.inj same).1

/-- The end of a backward pass calls `allreduce` if there are other workers. -/
theorem reduce (direct : d.scheduled = false)
    (pace : Pace (d.size (j,t)) (s.called ⟨w,j,t⟩) .ended (s.fabric.begun ⟨w,j,t⟩)
      (s.fabric.done ⟨w,j,t⟩)) : Attended (s.reduce d w j t) := by
  have granted := s.granted_reduce d w j t
  have fields := s.reduce_fields d w j t
  have pending := s.pending_reduce d w j t
  by_cases several : 1 < (d.tree j).workers.length
  · have called : (s.reduce d w j t).called =
        Function.update s.called ⟨w,j,t⟩ (s.called ⟨w,j,t⟩ + 1) := called_reduce direct several
    have stage : (s.reduce d w j t).stage =
        (s.setStage ⟨w,j,t⟩ (s.called ⟨w,j,t⟩) .first).stage := stage_reduce direct several
    rw [if_pos several] at pending
    generalize s.reduce d w j t = s' at *
    generalize (⟨w,j,t⟩ : TensorRef) = r at *
    have here : s'.lastCall r = .first := by
      simp only [lastCall,called,stage,setStage,Function.update_self]
    have away (q : TensorRef) (other : q ≠ r) : s'.lastCall q = s.lastCall q := by
      simp only [lastCall,called,stage,setStage,Function.update_of_ne other]
    refine ⟨fun v i u at' => ?_,fun q waits => ?_,fun q busy all => ?_⟩
    · rw [fields.2.2] at at'
      exact granted (attended.settling v i u at')
    · rcases eq_or_ne q r with rfl | other
      · rw [here]
        exact Suspension.noConfusion
      · rw [pending,Function.update_of_ne other] at waits
        rw [away q other]
        exact attended.busy q waits
    · rw [fields.1,called] at all
      rcases eq_or_ne q r with rfl | other
      · rw [Function.update_self,pace.of_ended.2] at all
        omega
      · rw [Function.update_of_ne other] at all
        rw [away q other] at busy
        exact woken_of_subset (by rw [called,Function.update_of_ne other])
          (fun _ member => granted member) (attended.answered q busy all)
  · have same : s.reduce d w j t =
        s.release ((⟨w,j,t⟩ : TensorRef).fpLock d.cfg) (.coroutine (.job w j)) := if_neg several
    rw [same] at granted ⊢
    refine ⟨fun v i u at' => granted (attended.settling v i u at'),attended.busy,fun q busy all => ?_⟩
    exact woken_of_subset (s := s) rfl (fun _ member => granted member)
      (attended.answered q busy all)

variable (coupled : Coupled d exact lad s)
include coupled

/-- A timeout of `execute_job` ends. -/
theorem elapse (direct : d.scheduled = false) (taken : s.elapse d w j = some s') : Attended s' := by
  unfold Training.elapse at taken
  split at taken
  · rename_i iter t position
    cases taken
    obtain ⟨p,onward,next⟩ := s.passForward_onward d w j t iter
    refine attended.onward onward (s.pending_passForward ..) (s.granted_passForward ..) fun u => ?_
    rcases next with rfl | ⟨rfl,_⟩ <;> exact Position.noConfusion
  · rename_i iter t position
    cases taken
    obtain ⟨worker,inside⟩ := coupled.orderly.placed.within w j _ position
    have real : d.Real ⟨w,j,t⟩ := ⟨worker,inside⟩
    have pace := coupled.paced.pace _ real
    rw [coupled.orderly.quiet real (Or.inl (by
      rw [holdOf_at position]
      exact if_pos (Nat.le_refl t)))] at pace
    have reduced := attended.reduce direct pace
    cases t with
    | zero =>
      obtain ⟨p,onward,next⟩ := (s.reduce d w j 0).iterate_onward d w j (iter + 1)
      refine reduced.onward onward (pending_iterate ..) (granted_iterate ..) fun u => ?_
      rcases next with ⟨rfl,_⟩ | ⟨_,rfl | rfl⟩ <;> exact Position.noConfusion
    | succ t =>
      exact reduced.goto (p := .backward iter t) rfl rfl rfl rfl (fun _ _ => id) rfl nofun
  · cases taken
    exact attended.goto (p := .gone) rfl rfl rfl rfl (fun _ _ => id) rfl nofun
  · cases taken

/-- A granted `execute_job` goes on. -/
theorem resumeJob (granted : .job w j ∈ s.granted)
    (taken : { s with granted := s.granted.erase (.job w j) }.resumeJob d w j = some s') :
    Attended s' := by
  have others (waiter : Waiter) (other : waiter ≠ .job w j) (member : waiter ∈ s.granted) :
      waiter ∈ s.granted.erase (.job w j) := (List.mem_erase_of_ne other).mpr member
  unfold Training.resumeJob at taken
  split at taken
  · rename_i iter t position
    cases taken
    exact attended.goto (p := .computing iter t) rfl rfl rfl rfl others rfl nofun
  · rename_i t position
    have position : s.position (w,j) = some (.closing t) := position
    cases taken
    have lease := coupled.orderly.leased.lease ⟨w,j,t⟩ (coupled.orderly.placed.within w j _ position)
    have holds : (Position.closing t).hold true t = .holds := by simp [Position.hold]
    rw [holdOf_at position,decide_eq_true granted,holds] at lease
    have now : ((s.locks ((⟨w,j,t⟩ : TensorRef).allreduceLock d.cfg)).request (.job w j)).1 =
      [.job w j] := lease.settle.1
    refine attended.goto (p := .settling t) rfl rfl rfl rfl
      (fun waiter other member => List.mem_append_left _ (others waiter other member)) rfl fun _ _ => ?_
    exact List.mem_append_right _ (now ▸ List.mem_singleton_self _)
  · rename_i t position
    cases taken
    obtain ⟨p,onward,ends⟩ :=
      { s with granted := s.granted.erase (.job w j) }.settle_onward d w j t
    refine attended.goto onward.fabric (pending_settle ..) onward.called onward.stage
      (fun waiter other member => granted_settle _ _ _ _ _ (others waiter other member))
      onward.position fun u same => ?_
    rcases ends with rfl | rfl <;> cases same
  · cases taken

theorem deliver (member : fl ∈ s.fabric.inflight) : Attended (s.deliver d fl) := by
  obtain ⟨fabric,_,position,called,stage⟩ := s.deliver_fields d fl
  have granted := s.granted_deliver d fl
  have last (q : TensorRef) : (s.deliver d fl).lastCall q = s.lastCall q := by
    simp only [lastCall,called,stage]
  refine ⟨fun v i t at' => ?_,fun q => ?_,fun q busy all => ?_⟩
  · rw [position] at at'
    exact granted (attended.settling v i t at')
  · rw [s.pending_deliver d fl,last]
    exact attended.busy q
  · rw [last] at busy
    rw [fabric,called] at all
    rcases s.fabric.done_deliver_cases d.cfg fl q with same | ⟨w,dest,rfl,more⟩
    · exact woken_of_subset (by rw [called]) (fun _ member => granted member)
        (attended.answered q busy (same ▸ all))
    · obtain ⟨real,count,call,_⟩ := coupled.awaited member dest
      have releases : s.fabric.releases d.cfg fl = true := by
        by_contra silent
        have done := s.fabric.done_deliver d.cfg fl
        simp only [dest,if_neg silent] at done
        rw [done] at more
        omega
      have next : (s.deliver d fl).granted = s.granted ++
          (s.locks ((fl.layer.ref w).allreduceLock d.cfg)).release.1 := by
        dsimp only [Training.deliver]
        rw [dest]
        dsimp only
        rw [if_pos releases]
        rfl
      rcases (coupled.orderly.leased.lease _ real).packet with
        ⟨k,_,count,_,_,wakes,_⟩ | ⟨_,awake,_⟩
      · refine woken_iff.mpr ⟨k,(congrFun called _).trans count,?_⟩
        have wakes : (s.locks ((fl.layer.ref w).allreduceLock d.cfg)).release.1 = _ := wakes
        rw [next,wakes]
        exact List.mem_append_right _ (List.mem_singleton_self _)
      · exact woken_of_subset (by rw [called]) (fun _ member => granted member) (awake _ call)

theorem step (direct : d.scheduled = false) {label : Label}
    (taken : Training.step d label s = some s') : Attended s' := by
  cases stepped taken with
  | place _ => exact ⟨attended.settling,attended.busy,attended.answered⟩
  | @execute j w _ _ _ =>
    obtain ⟨p,onward,next⟩ := s.iterate_onward d w j 0
    refine attended.onward onward (s.pending_iterate ..) (s.granted_iterate ..) fun u => ?_
    rcases next with ⟨rfl,_⟩ | ⟨_,rfl | rfl⟩ <;> exact Position.noConfusion
  | elapse taken => exact attended.elapse coupled direct taken
  | job granted taken => exact attended.resumeJob coupled granted taken
  | @launch r k granted first =>
    obtain ⟨called,real⟩ := coupled.orderly.leased.calls r k granted
    have pace := coupled.paced.pace r real
    rw [show s.lastCall r = .first by simp only [lastCall,called,first]] at pace
    obtain ⟨count,level⟩ := pace.of_first
    refine attended.move called rfl rfl rfl rfl (fun waiter other member =>
      List.mem_append_left _ ((List.mem_erase_of_ne other).mpr member)) (fun q waits =>
      ⟨waits,fun _ => Suspension.noConfusion⟩) fun _ => ?_
    omega
  | @finish r k g granted second =>
    obtain ⟨called,real⟩ := coupled.orderly.leased.calls r k granted
    have pace := coupled.paced.pace r real
    rw [show s.lastCall r = .second g by simp only [lastCall,called,second]] at pace
    obtain ⟨fabric,_,position,calls,stage⟩ :=
      { s with granted := s.granted.erase (.call r k) }.finish_fields d r k g
    have pending := { s with granted := s.granted.erase (.call r k) }.pending_finish d r k g
    have whole : (s.fabric.objs.tensor r).size ≤
        u64 ((s.fabric.objs.tensor r).allreducedSize + g) := by
      rw [coupled.stocked.sizes,coupled.stocked.whole,Nat.zero_add,pace.of_second.1]
      exact (Nat.mod_eq_of_lt (d.sizeFits r.layer)).ge
    rw [if_pos whole] at pending
    refine attended.move called calls stage position ?_ (fun waiter other member =>
      granted_finish _ _ _ _ _ ((List.mem_erase_of_ne other).mpr member)) (fun q waits => ?_)
      fun busy => absurd rfl busy
    · rw [fabric]
      exact ((s.fabric.tally r g).cleanUp_fields d.cfg r k).2.2.2.1
    · rw [pending] at waits
      rcases eq_or_ne q r with rfl | other
      · rw [Function.update_self] at waits
        cases waits
      · rw [Function.update_of_ne other] at waits
        exact ⟨waits,fun same => absurd same other⟩
  | call scheduled _ _ =>
    rw [direct] at scheduled
    cases scheduled
  | deliver member _ => exact attended.deliver coupled member

end Attended
end Training
end CloudSim
