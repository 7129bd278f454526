import CloudSim.FlowProgress
import CloudSim.TrainingMeasure
import Mathlib.Data.Finset.Max

/-! Training without a collective scheduler ends: there is always somebody who can go on, and
every step leaves less to do. -/
namespace CloudSim
namespace Training

/-- A contribution reaches a switch after the clean-ups of earlier allreduces, and a worker tears
a job down when no packet carries one of its tensors. -/
def timely (label : Label) (s : Training) : Prop := afterCleanUps label s ∧ unread label s

instance (label : Label) (s : Training) : Decidable (timely label s) :=
  inferInstanceAs (Decidable (_ ∧ _))

structure Steady (d : Plan) (lad : Ladders) (s : Training) : Prop where
  coupled : Coupled d True lad s
  counts : Counts d s
  attended : Attended s
  live : Live s
  ledger : Ledger d s

theorem Steady.step {d : Plan} {lad : Ladders} {s s' : Training} (steady : Steady d lad s)
    (direct : d.scheduled = false) (cut : d.DistinctCut) (noWrap : d.NoWrap) {label : Label}
    (allowed : timely label s) (taken : Training.step d label s = some s') :
    ∃ lad', Steady d lad' s' := by
  obtain ⟨⟨lad',coupled⟩,_⟩ :=
    steady.coupled.step direct cut noWrap (fun _ => allowed.1) taken
  obtain ⟨extra,orderly⟩ := steady.ledger.orderly
  exact ⟨lad',coupled,steady.counts.step direct taken,
    steady.attended.step steady.coupled direct taken,steady.live.step orderly allowed.2 taken,
    (steady.ledger.step cut.keys taken).1⟩

namespace Steady
variable {d : Plan} {lad : Ladders} {s : Training} {w j t k : Nat} {r : TensorRef}
  (steady : Steady d lad s)
include steady

theorem resumes (member : waiter ∈ s.granted) :
    ∃ s', Training.step d (.resume waiter) s = some s' := by
  have coupled := steady.coupled
  cases waiter with
  | job w j =>
    obtain ⟨p,position,waits⟩ := coupled.orderly.placed.waiting w j member
    simp only [Training.step,if_pos member,resumeJob,position]
    cases p with
    | forward | closing | settling => exact ⟨_,rfl⟩
    | computing | backward | leaving | gone => cases waits
  | call r k =>
    obtain ⟨real,_,stage,woken⟩ := coupled.orderly.leased.resumes member
    have busy : s.stage r k ≠ .ended := fun ended => Bool.false_ne_true
      (((coupled.orderly.leased.lease r real).asleep (stage.trans ended)).symm.trans woken)
    simp only [Training.step,if_pos member,resumeCall]
    split
    · exact ⟨_,rfl⟩
    · exact ⟨_,rfl⟩
    · rename_i ended
      exact absurd ended busy

/-- If no lock is granted, a call that is under way waits for results. -/
theorem waits (still : s.granted = []) (real : d.Real r) (busy : s.lastCall r ≠ .ended) :
    s.called r = s.fabric.done r + 1 ∧ s.fabric.begun r = s.fabric.done r + 1 := by
  have asleep : s.woken r = false := by
    by_contra woken
    obtain ⟨k,_,member⟩ := woken_iff.mp (Bool.not_eq_false _ ▸ woken)
    rw [still] at member
    cases member
  have lease := steady.coupled.orderly.leased.lease r real
  have pace := steady.coupled.paced.pace r real
  have answered := steady.attended.answered r busy
  have first : s.lastCall r ≠ .first := by
    intro first
    have woken : s.woken r = true := lease.woken_of_first first
    exact Bool.false_ne_true (asleep.symm.trans woken)
  have open' : s.fabric.done r ≠ s.called r := fun all =>
    Bool.false_ne_true (asleep.symm.trans (answered all))
  generalize s.lastCall r = call at *
  generalize s.called r = called at *
  generalize s.fabric.begun r = begun at *
  generalize s.fabric.done r = done at *
  cases pace with
  | ended => exact absurd rfl busy
  | first => exact absurd rfl first
  | sent => exact ⟨rfl,rfl⟩
  | received => exact absurd rfl open'

/-- A contribution that is too early waits for a call that waits for a result on its way. -/
theorem falls (still : s.granted = []) (sound : (d.layers s.jobs).Sound)
    (member : fl ∈ s.fabric.inflight) (early : ¬afterCleanUps (.deliver fl) s) :
    ∃ g ∈ s.fabric.inflight, g.hop.packet.upward = false := by
  have flow := steady.coupled.flow
  obtain ⟨upward,late⟩ := Classical.not_imp.mp early
  have late : s.fabric.cleaned fl.hop.dest fl.layer < fl.turn := Nat.not_le.mp late
  have proper := flow.links.proper fl member
  have active : fl.layer ∈ d.Layers s.jobs := proper.1
  have station : (d.tree fl.layer.1).IsStation fl.hop.dest := by
    obtain ⟨_,_,_,stamp⟩ := flow.links.stamped fl member
    have dest : fl.hop.dest = fl.place.link.dest (d.tree fl.layer.1) := by
      conv_lhs => rw [stamp]
      rfl
    rw [dest]
    refine Link.dest_station proper.2.2 fun v down => ?_
    have link : fl.link = .down v := Flight.link_down.mpr (dest.trans down)
    have falls : fl.hop.packet.upward = fl.place.link.upward := by
      conv_lhs => rw [stamp]
      rfl
    rw [falls,show fl.place.link = _ from link] at upward
    cases upward
  -- the worker that is ahead has the results that the cleaner lacks
  obtain ⟨w,worker,ahead⟩ := flow.turn_lt member
  have worker : w ∈ (d.tree fl.layer.1).workers := worker
  have cleaner := Tree.cleanerOf_mem station
  have cleaned := steady.coupled.paced.cleaned fl.layer fl.hop.dest station
  generalize (d.tree fl.layer.1).cleanerOf fl.hop.dest = c at cleaner cleaned
  have real : d.Real (fl.layer.ref c) := ⟨cleaner,active.2.1⟩
  have sender := flow.senders _ active w worker
  have sender' := flow.senders _ active c cleaner
  have got (i : Nat) (slot : i < d.cfg.numSlots) :
      fl.turn * (d.layers s.jobs).rounds fl.layer i ≤ (lad fl.layer i).got w := by
    have most := sender.begun_le
    exact (Nat.mul_le_mul_right _ (by omega)).trans (sender.base i slot)
  have begun : fl.turn ≤ s.fabric.begun (fl.layer.ref c) := by
    have some : 0 < (d.layers s.jobs).pkts fl.layer := by
      rw [Traffic.pkts,Config.lt_pkts sound.updates,Nat.zero_mul]
      exact sound.positive _ active
    have used : 0 < (d.layers s.jobs).rounds fl.layer 0 := (Lanes.rounds_pos d.slots).mpr some
    have sent : (lad fl.layer 0).sent c = min _ _ := sender'.sent 0 d.slots
    have ordered := flow.ordered _ active 0 d.slots
    have first := (got 0 d.slots).trans (ordered.got_le_sent worker cleaner)
    exact Nat.le_of_mul_le_mul_right (first.trans (sent ▸ Nat.min_le_right _ _)) used
  have pace := steady.coupled.paced.pace _ real
  have busy : s.lastCall (fl.layer.ref c) ≠ .ended := by
    intro ended
    rw [if_pos ended] at cleaned
    rw [ended] at pace
    have level := pace.of_ended
    omega
  obtain ⟨called,running⟩ := steady.waits still real busy
  rw [if_neg busy] at cleaned
  obtain ⟨i,slot,behind⟩ := sender'.opened (by omega)
  rw [show s.fabric.begun (fl.layer.ref c) = fl.turn by omega] at behind
  exact flow.falls active slot worker cleaner (Nat.lt_of_lt_of_le behind (got i slot))

omit steady in
def lap (d : Plan) (s : Training) (j w : Nat) : Nat :=
  match s.position (w,j) with
  | some (.forward iter _) => iter
  | _ => d.nIter j

section stuck
variable (still : s.granted = []) (idle : ∀ w j, s.elapse d w j = none)
include still idle

theorem suspended {p : Position} (position : s.position (w,j) = some p) :
    p = .gone ∨ ∃ t < d.modelSize j, s.holdOf ⟨w,j,t⟩ = .waits := by
  have inside := (steady.coupled.orderly.placed.within w j p position).2
  have absent : .job w j ∉ s.granted := still ▸ List.not_mem_nil
  have none := idle w j
  simp only [elapse,position] at none
  cases p with
  | forward iter t =>
    refine Or.inr ⟨t,inside,?_⟩
    rw [holdOf_at position,decide_eq_false absent]
    simp [Position.hold]
  | closing t =>
    refine Or.inr ⟨t,inside,?_⟩
    rw [holdOf_at position,decide_eq_false absent]
    simp [Position.hold]
  | settling t => exact absurd (steady.attended.settling w j t position) absent
  | gone => exact Or.inl rfl
  | computing | backward | leaving => cases none

theorem begun_of_still {p : Position} (position : s.position (w,j) = some p)
    (inside : t < d.modelSize j) (several : 2 ≤ (d.tree j).workers.length) :
    s.called ⟨w,j,t⟩ = lap d s j w ∧ s.fabric.begun ⟨w,j,t⟩ = lap d s j w := by
  have worker := (steady.coupled.orderly.placed.within w j p position).1
  have real : d.Real ⟨w,j,t⟩ := ⟨worker,inside⟩
  have calls : s.called ⟨w,j,t⟩ = _ := steady.counts.calls ⟨w,j,t⟩ p inside several position
  have called : s.called ⟨w,j,t⟩ = lap d s j w := by
    rw [calls]
    simp only [lap,position]
    rcases steady.suspended still idle position with rfl | ⟨u,_,waits⟩
    · rfl
    · have asks := Position.waits_of_hold ((holdOf_at position).symm.trans waits)
      cases p with
      | forward | closing | settling => rfl
      | computing | backward | leaving | gone => cases asks
  refine ⟨called,?_⟩
  rw [← called]
  by_cases busy : s.lastCall ⟨w,j,t⟩ = .ended
  · have pace := steady.coupled.paced.pace _ real
    rw [busy] at pace
    exact pace.of_ended.1
  · have waits := steady.waits still real busy
    exact waits.2.trans waits.1.symm

/-- If also no packet is under way, all workers have left. The others would wait for a worker that
is behind them, and the last of them for nobody. -/
theorem gone (quiet : s.fabric.inflight = []) (placed : j ∈ s.jobs)
    (started : ∀ w ∈ (d.tree j).workers, s.position (w,j) ≠ none)
    (worker : w ∈ (d.tree j).workers) : s.position (w,j) = some .gone := by
  by_contra stays
  let late : Finset Nat :=
    ((d.tree j).workers.filter fun v => s.position (v,j) ≠ some .gone).toFinset
  have mem_late (v : Nat) : v ∈ late ↔ v ∈ (d.tree j).workers ∧ s.position (v,j) ≠ some .gone := by
    simp [late]
  obtain ⟨v,member,last⟩ := late.exists_min_image (lap d s j) ⟨w,(mem_late w).mpr ⟨worker,stays⟩⟩
  obtain ⟨mine,open'⟩ := (mem_late v).mp member
  obtain ⟨p,position⟩ := Option.ne_none_iff_exists'.mp (started v mine)
  obtain ⟨t,inside,waits⟩ := (steady.suspended still idle position).resolve_left fun gone =>
    open' (gone ▸ position)
  have real : d.Real ⟨v,j,t⟩ := ⟨mine,inside⟩
  have lease := steady.coupled.orderly.leased.lease _ real
  rw [waits] at lease
  have pending : s.pending ⟨v,j,t⟩ = true := lease.pending_of_waits
  have several : 2 ≤ (d.tree j).workers.length := steady.ledger.several _ pending
  have busy := steady.attended.busy _ pending
  obtain ⟨called,_⟩ := steady.waits still real busy
  obtain ⟨count,_⟩ := steady.begun_of_still still idle position inside several
  have most : lap d s j v ≤ d.nIter j := by
    have before := steady.counts.before v j p position
    simp only [lap,position]
    cases p with
    | forward iter u => exact Nat.le_of_lt before
    | _ => exact Nat.le_refl _
  have begun (u : Nat) (other : u ∈ (d.tree j).workers) :
      lap d s j v ≤ s.fabric.begun (Layer.ref (j,t) u) := by
    obtain ⟨q,at'⟩ := Option.ne_none_iff_exists'.mp (started u other)
    have begun : s.fabric.begun (Layer.ref (j,t) u) = lap d s j u :=
      (steady.begun_of_still still idle at' inside several).2
    rw [begun]
    by_cases left : s.position (u,j) = some .gone
    · have all : lap d s j u = d.nIter j := by simp only [lap,left]
      exact most.trans all.ge
    · exact last u ((mem_late u).mpr ⟨other,left⟩)
  have active : ((j,t) : Layer) ∈ d.Layers s.jobs := ⟨placed,inside,several⟩
  have ended : lap d s j v ≤ s.fabric.done ⟨v,j,t⟩ :=
    steady.coupled.flow.ended_of_quiet active quiet begun mine
  omega

end stuck

theorem delivers (still : s.granted = []) (sound : (d.layers s.jobs).Sound)
    (busy : s.fabric.inflight ≠ []) :
    ∃ fl ∈ s.fabric.inflight, afterCleanUps (.deliver fl) s := by
  obtain ⟨fl,member⟩ := List.exists_mem_of_ne_nil _ busy
  by_cases late : afterCleanUps (.deliver fl) s
  · exact ⟨fl,member,late⟩
  · obtain ⟨g,also,down⟩ := steady.falls still sound member late
    exact ⟨g,also,fun upward => absurd (down.symm.trans upward) Bool.false_ne_true⟩

end Steady

/-- Every worker has left every job, after all iterations of all its tensors. -/
structure Finished (d : Plan) (s : Training) : Prop where
  quiet : s.fabric.inflight = []
  gone : ∀ j ∈ s.jobs, ∀ w ∈ (d.tree j).workers, s.position (w,j) = some .gone
  reduced : ∀ j ∈ s.jobs, ∀ w ∈ (d.tree j).workers, ∀ t < d.modelSize j,
    s.reduced d ⟨w,j,t⟩ = d.nIter j
  /-- Its allreduces have ended with all results. -/
  done : ∀ j ∈ s.jobs, 2 ≤ (d.tree j).workers.length → ∀ w ∈ (d.tree j).workers,
    ∀ t < d.modelSize j, s.fabric.done ⟨w,j,t⟩ = d.nIter j

section run
variable {d : Plan} {lad : Ladders} {s s' : Training} (direct : d.scheduled = false)
  (cut : d.DistinctCut) (noWrap : d.NoWrap)

theorem Steady.finished (steady : Steady d lad s) (quiet : s.fabric.inflight = [])
    (gone : ∀ j ∈ s.jobs, ∀ w ∈ (d.tree j).workers, s.position (w,j) = some .gone) :
    Finished d s where
  quiet := quiet
  gone := gone
  reduced j placed w worker t inside :=
    steady.ledger.reduced_gone (r := ⟨w,j,t⟩) ⟨worker,inside⟩ (gone j placed w worker)
  done j placed several w worker t inside := by
    have left := gone j placed w worker
    have real : d.Real ⟨w,j,t⟩ := ⟨worker,inside⟩
    have ended : s.lastCall ⟨w,j,t⟩ = .ended :=
      steady.coupled.orderly.quiet real (Or.inr (holdOf_at left))
    have pace := steady.coupled.paced.pace _ real
    rw [ended] at pace
    exact pace.of_ended.2.trans (steady.counts.calls ⟨w,j,t⟩ _ inside several left)

include cut noWrap

end run

end Training
end CloudSim
