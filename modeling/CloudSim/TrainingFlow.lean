import CloudSim.FlowRound
import CloudSim.TrainingSteps

/-! The calls of `allreduce` against the packets, in runs without a collective scheduler: which
calls have sent their packets and received their results, and which have cleaned the switches. -/
namespace CloudSim

namespace Plan
variable (d : Plan)

def Layers (jobs : List Nat) : Set Layer :=
  { l | l.1 ∈ jobs ∧ l.2 < d.modelSize l.1 ∧ 2 ≤ (d.tree l.1).workers.length }

/-- The keys of the jobs' layers differ in the low 32 bits. -/
def DistinctCut : Prop :=
  ∀ l m : Layer, l.2 < d.modelSize l.1 → m.2 < d.modelSize m.1 → l.cut d.cfg = m.cut d.cfg → l = m

/-- The offsets of no layer wrap around. -/
def NoWrap : Prop :=
  ∀ l : Layer, l.2 < d.modelSize l.1 → 2 ≤ (d.tree l.1).workers.length → d.cfg.NoWrap (d.size l)

theorem DistinctCut.keys {d : Plan} (cut : d.DistinctCut) : d.DistinctKeys :=
  fun l m real also key => cut l m real also (congrArg u32 key)

def layers (jobs : List Nat) : Traffic := ⟨d.cfg,d.tree,d.size,d.Layers jobs,d.topo.ports⟩

variable {d}

theorem layers_sound (cut : d.DistinctCut) (noWrap : d.NoWrap) (jobs : List Nat) :
    (d.layers jobs).Sound where
  slots := d.slots
  updates := d.updates
  several _ active := active.2.2
  few l _ := d.few l.1
  positive l _ := d.positive l
  noWrap l active := noWrap l active.2.1 active.2.2
  apart l active m also := cut l m active.2.1 also.2.1

end Plan

namespace Training

/-- A tensor's calls of `allreduce`, where the last one is, and the allreduces that it has begun
and received completely. -/
inductive Pace (size : Nat) : Nat → Suspension → Nat → Nat → Prop where
  | ended : Pace size n .ended n n
  | first : Pace size (n + 1) .first n n
  | sent : Pace size (n + 1) (.second size) (n + 1) n
  | received : Pace size (n + 1) (.second size) (n + 1) (n + 1)

namespace Pace
variable {size called begun done : Nat} {call : Suspension}

theorem of_first (pace : Pace size called .first begun done) :
    called = begun + 1 ∧ begun = done := by
  cases pace
  exact ⟨rfl,rfl⟩

theorem of_ended (pace : Pace size called .ended begun done) : begun = called ∧ done = called := by
  cases pace
  exact ⟨rfl,rfl⟩

theorem of_second (pace : Pace size called (.second g) begun done) :
    g = size ∧ begun = called := by
  cases pace <;> exact ⟨rfl,rfl⟩

/-- Only a call that waits for results has begun an allreduce and not received it. -/
theorem of_outstanding (pace : Pace size called call begun done) (outstanding : done < begun) :
    called = done + 1 ∧ call = .second size ∧ begun = done + 1 := by
  cases pace with
  | sent => exact ⟨rfl,rfl,rfl⟩
  | _ => exact absurd outstanding (Nat.lt_irrefl _)

end Pace

/-- The second request of call `k` was granted when its last result arrived. -/
def woke (f : Fabric) (r : TensorRef) (k : Nat) (cause : Cause) : Prop :=
  f.done r = k + 1 ∧ ∃ fl, cause = .packet fl ∧ fl.layer = r.layer ∧ fl.turn = k ∧
    fl.hop.dest = .worker r.machine

structure Stocked (d : Plan) (jobs : List Nat) (f : Fabric) : Prop where
  laid : Laid d.toDeployment jobs f.net
  allocated : ∀ j, f.objs.numWorkersAllocated j = (d.tree j).workers.length
  sizes : ∀ r, (f.objs.tensor r).size = d.size r.layer
  whole : ∀ r, (f.objs.tensor r).allreducedSize = 0
  owned : ∀ x tkey, (∀ w, x ≠ .worker w) → (f.net.switch x).holds tkey →
    ∃ l ∈ d.Layers jobs, l.cut d.cfg = tkey
  received : ∀ w tkey, (f.net.worker w).received tkey ≠ ∅ → ∃ l ∈ d.Layers jobs, l.cut d.cfg = tkey

/-- The calls against the history of the packets. -/
structure Paced (d : Plan) (s : Training) : Prop where
  pace : ∀ r, d.Real r → Pace (d.size r.layer) (s.called r) (s.lastCall r) (s.fabric.begun r)
    (s.fabric.done r)
  several : ∀ r, s.called r ≠ 0 → r.layer ∈ d.Layers s.jobs
  /-- A switch has been cleaned by the calls of its cleaner that have ended. -/
  cleaned : ∀ l x, (d.tree l.1).IsStation x →
    s.fabric.cleaned x l +
      (if s.lastCall (l.ref ((d.tree l.1).cleanerOf x)) = .ended then 0 else 1) =
        s.called (l.ref ((d.tree l.1).cleanerOf x))

/-- With `exact`, contributions come after the clean-ups of earlier allreduces. -/
structure Coupled (d : Plan) (exact : Prop) (lad : Ladders) (s : Training) : Prop where
  stocked : Stocked d s.jobs s.fabric
  paced : Paced d s
  orderly : Orderly d (woke s.fabric) s fun _ => 0
  placed : ∀ w j p, s.position (w,j) = some p → j ∈ s.jobs
  flow : Flow (d.layers s.jobs) exact lad s.fabric

theorem initial_coupled (d : Plan) (exact : Prop) (cut : d.DistinctCut) (noWrap : d.NoWrap) :
    Coupled d exact (fun _ _ => Ladder.ground) (initial d) where
  stocked :=
    { laid := ⟨HierarchicalTopology.initNetwork_built _,
        fun j _ => HierarchicalTopology.initNetwork_unplaced _ j,
        (fun _ member => by cases member),rfl⟩
      allocated := fun _ => rfl
      sizes := fun _ => rfl
      whole := fun _ => rfl
      owned := fun x tkey switch holds => by
        cases x with
        | tor t => rcases holds with some | some <;> exact absurd rfl some
        | core => rcases holds with some | some <;> exact absurd rfl some
        | worker w => exact absurd rfl (switch w)
      received := fun w tkey some => absurd rfl some }
  paced :=
    { pace := fun _ _ => .ended
      several := fun _ some => absurd rfl some
      cleaned := fun _ _ _ => rfl }
  orderly := initial_orderly d _
  placed := nofun
  flow := by
    refine Flow.initial (Plan.layers_sound cut noWrap _) exact _ ?_ rfl ?_ ⟨?_,?_,?_⟩
    all_goals
      intro l active
      cases active.1

variable {d : Plan} {exact : Prop} {lad : Ladders} {s s' : Training} {w j t k : Nat} {r : TensorRef}

namespace Paced
variable (paced : Paced d s)
include paced

theorem congr (fabric : s'.fabric = s.fabric) (jobs : s'.jobs = s.jobs)
    (called : s'.called = s.called) (stage : s'.stage = s.stage) : Paced d s' := by
  have last (q : TensorRef) : s'.lastCall q = s.lastCall q := by simp only [lastCall,called,stage]
  refine ⟨fun q real => ?_,fun q => ?_,fun l x station => ?_⟩
  · rw [fabric,called,last]; exact paced.pace q real
  · rw [called,jobs]; exact paced.several q
  · rw [fabric,called,last]; exact paced.cleaned l x station

theorem call (real : d.Real r) (quiet : s.lastCall r = .ended) (active : r.layer ∈ d.Layers s.jobs)
    (fabric : s'.fabric = s.fabric) (jobs : s'.jobs = s.jobs)
    (called : s'.called = Function.update s.called r (s.called r + 1))
    (stage : s'.stage = (s.setStage r (s.called r) .first).stage) : Paced d s' := by
  have here : s'.lastCall r = .first := by
    simp only [lastCall,called,stage,setStage,Function.update_self]
  have last (q : TensorRef) (other : q ≠ r) : s'.lastCall q = s.lastCall q := by
    simp only [lastCall,called,stage,setStage,Function.update_of_ne other]
  refine ⟨fun q also => ?_,fun q => ?_,fun l x station => ?_⟩
  · rw [fabric,called]
    rcases eq_or_ne q r with rfl | other
    · have before := paced.pace q also
      rw [quiet] at before
      rw [here,Function.update_self,before.of_ended.1,before.of_ended.2]
      exact .first
    · rw [last q other,Function.update_of_ne other]
      exact paced.pace q also
  · rw [called,jobs]
    rcases eq_or_ne q r with rfl | other
    · exact fun _ => active
    · rw [Function.update_of_ne other]
      exact paced.several q
  · have before := paced.cleaned l x station
    rw [fabric,called]
    rcases eq_or_ne (l.ref ((d.tree l.1).cleanerOf x)) r with same | other
    · rw [same,quiet,if_pos rfl] at before
      rw [same,here,Function.update_self,← before]
      rfl
    · rw [last _ other,Function.update_of_ne other]
      exact before

theorem reduce (direct : d.scheduled = false) (placed : j ∈ s.jobs) (real : d.Real ⟨w,j,t⟩)
    (quiet : s.lastCall ⟨w,j,t⟩ = .ended) : Paced d (s.reduce d w j t) := by
  unfold Training.reduce
  split
  · rename_i several
    rw [direct]
    exact paced.call real quiet ⟨placed,real.2,several⟩ rfl rfl rfl rfl
  · exact paced.congr rfl rfl rfl rfl

theorem move (last : s.called r = k + 1) (jobs : s'.jobs = s.jobs) (called : s'.called = s.called)
    {now : Suspension} (stage : s'.stage = (s.setStage r k now).stage)
    (pace : Pace (d.size r.layer) (k + 1) now (s'.fabric.begun r) (s'.fabric.done r))
    (others : ∀ q, q ≠ r → s'.fabric.begun q = s.fabric.begun q ∧
      s'.fabric.done q = s.fabric.done q)
    (cleaned : ∀ l x, (d.tree l.1).IsStation x → s'.fabric.cleaned x l = s.fabric.cleaned x l +
      if l.ref ((d.tree l.1).cleanerOf x) = r ∧ now = .ended then 1 else 0)
    (busy : s.lastCall r ≠ .ended) : Paced d s' := by
  have here : s'.lastCall r = now := by
    simp only [lastCall,called,last,stage,setStage,Function.update_self]
  have away (q : TensorRef) (other : q ≠ r) : s'.lastCall q = s.lastCall q := by
    simp only [lastCall,called,stage,setStage,Function.update_of_ne other]
  refine ⟨fun q also => ?_,fun q => ?_,fun l x station => ?_⟩
  · rw [called]
    rcases eq_or_ne q r with rfl | other
    · rw [here,last]
      exact pace
    · rw [away q other,(others q other).1,(others q other).2]
      exact paced.pace q also
  · rw [called,jobs]
    exact paced.several q
  · have before := paced.cleaned l x station
    rw [called,cleaned l x station]
    rcases eq_or_ne (l.ref ((d.tree l.1).cleanerOf x)) r with same | other
    · rw [same,if_neg busy] at before
      rw [same,here,← before]
      by_cases ends : now = .ended <;> simp [ends]
    · rw [away _ other,if_neg fun both => other both.1]
      exact before

theorem onward (onward : Onward s s' w j p) : Paced d s' :=
  paced.congr onward.fabric onward.jobs onward.called onward.stage

end Paced

namespace Coupled
variable (coupled : Coupled d exact lad s)
include coupled

/-- A step of `execute_job`. -/
theorem step_job (orderly : Orderly d (woke s.fabric) s' fun _ => 0) (paced : Paced d s')
    (fabric : s'.fabric = s.fabric) (jobs : s'.jobs = s.jobs)
    (position : s'.position = Function.update s.position (w,j) p) (placed : j ∈ s.jobs) :
    Coupled d exact lad s' := by
  refine ⟨?_,paced,?_,fun v i q at' => ?_,?_⟩
  · rw [fabric,jobs]; exact coupled.stocked
  · rw [fabric]; exact orderly
  · rw [position] at at'
    rw [jobs]
    rcases eq_or_ne (v,i) (w,j) with same | other
    · obtain ⟨rfl,rfl⟩ := Prod.mk.inj same
      exact placed
    · rw [Function.update_of_ne other] at at'
      exact coupled.placed v i q at'
  · rw [fabric,jobs]; exact coupled.flow

theorem execute (keys : d.DistinctKeys) (placed : j ∈ s.jobs) (worker : w ∈ (d.tree j).workers)
    (idle : s.position (w,j) = none) : Coupled d exact lad (s.iterate d w j 0) := by
  obtain ⟨p,onward,_⟩ := s.iterate_onward d w j 0
  exact coupled.step_job ((coupled.orderly.begins idle worker).iterate keys (fun _ _ => rfl) 0)
    (coupled.paced.onward onward) onward.fabric onward.jobs onward.position placed

theorem elapses (direct : d.scheduled = false) (keys : d.DistinctKeys)
    (taken : s.elapse d w j = some s') : Coupled d exact lad s' := by
  have orderly := coupled.orderly.elapses keys taken
  unfold Training.elapse at taken
  split at taken
  · rename_i iter t position
    cases taken
    obtain ⟨p,onward,_⟩ := s.passForward_onward d w j t iter
    exact coupled.step_job orderly (coupled.paced.onward onward) onward.fabric onward.jobs
      onward.position (coupled.placed w j _ position)
  · rename_i iter t position
    cases taken
    have placed := coupled.placed w j _ position
    obtain ⟨worker,inside⟩ := coupled.orderly.placed.within w j _ position
    have real : d.Real ⟨w,j,t⟩ := ⟨worker,inside⟩
    have quiet : s.lastCall ⟨w,j,t⟩ = .ended := coupled.orderly.quiet real (Or.inl (by
      rw [holdOf_at position]
      exact if_pos (Nat.le_refl t)))
    have paced := coupled.paced.reduce direct placed real quiet
    obtain ⟨fabric,jobs,same⟩ := s.reduce_fields d w j t
    cases t with
    | zero =>
      obtain ⟨p,onward,_⟩ := (s.reduce d w j 0).iterate_onward d w j (iter + 1)
      exact coupled.step_job orderly (paced.onward onward) (onward.fabric.trans fabric)
        (onward.jobs.trans jobs) (onward.position.trans (by rw [same])) placed
    | succ t =>
      exact coupled.step_job orderly (paced.congr rfl rfl rfl rfl) fabric jobs
        (congrArg (Function.update · (w,j) _) same) placed
  · rename_i position
    cases taken
    exact coupled.step_job orderly (coupled.paced.congr rfl rfl rfl rfl) rfl rfl rfl
      (coupled.placed w j _ position)
  · cases taken

theorem resumeJob (keys : d.DistinctKeys) (granted : .job w j ∈ s.granted)
    (taken : { s with granted := s.granted.erase (.job w j) }.resumeJob d w j = some s') :
    Coupled d exact lad s' := by
  obtain ⟨q,position,_⟩ := coupled.orderly.placed.waiting w j granted
  obtain ⟨p,onward,_⟩ := resumeJob_frame taken
  exact coupled.step_job (coupled.orderly.resumeJob keys granted taken)
    (coupled.paced.congr onward.fabric onward.jobs onward.called onward.stage) onward.fabric
    onward.jobs onward.position (coupled.placed w j q position)

end Coupled

end Training
end CloudSim
