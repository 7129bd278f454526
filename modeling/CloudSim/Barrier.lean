import CloudSim.BackToBack

/-! The barrier between the iterations of a job without a scheduler. `execute_job` counts the
calls of `allreduce`, the locks tell which of them have ended, and what has ended has been sent by
every worker. -/
namespace CloudSim
namespace Training
namespace Position

/-- The calls on tensor `t` that `execute_job` has made at a position of its `n` iterations. -/
def calls (n t : Nat) : Position → Nat
  | forward iter _ | computing iter _ => iter
  | backward iter u => if u < t then iter + 1 else iter
  | closing _ | settling _ | leaving | gone => n

def Before (n : Nat) : Position → Prop
  | forward iter _ | computing iter _ | backward iter _ => iter < n
  | closing _ | settling _ | leaving | gone => True

end Position

/-- The calls that `execute_job` has made follow from its position. -/
structure Counts (d : Plan) (s : Training) : Prop where
  idle : ∀ r, s.position (r.machine,r.job) = none → s.called r = 0
  calls : ∀ r p, r.tensorId < d.modelSize r.job → 2 ≤ (d.tree r.job).workers.length →
    s.position (r.machine,r.job) = some p → s.called r = p.calls (d.nIter r.job) r.tensorId
  before : ∀ w j p, s.position (w,j) = some p → p.Before (d.nIter j)

variable {d : Plan} {s s' : Training} {w j t k : Nat} {p : Position} {r : TensorRef}
  {lad : Ladders} {exact : Prop}

namespace Counts
variable (counts : Counts d s)
include counts

theorem congr (position : s'.position = s.position) (called : s'.called = s.called) :
    Counts d s' := by
  refine ⟨fun r => ?_,fun r p => ?_,?_⟩
  · rw [position,called]; exact counts.idle r
  · rw [position,called]; exact counts.calls r p
  · rw [position]; exact counts.before

/-- `execute_job` of `w` for `j` has gone on. -/
theorem goto (position : s'.position = Function.update s.position (w,j) (some p))
    (elsewhere : ∀ r, (r.machine,r.job) ≠ (w,j) → s'.called r = s.called r)
    (own : ∀ t < d.modelSize j, 2 ≤ (d.tree j).workers.length →
      s'.called ⟨w,j,t⟩ = p.calls (d.nIter j) t)
    (before : p.Before (d.nIter j)) : Counts d s' := by
  refine ⟨fun r none => ?_,fun r q inside several at' => ?_,fun v i q at' => ?_⟩
  · rw [position] at none
    rcases eq_or_ne (r.machine,r.job) (w,j) with same | other
    · rw [same,Function.update_self] at none
      cases none
    · rw [Function.update_of_ne other] at none
      exact (elsewhere r other).trans (counts.idle r none)
  · rw [position] at at'
    rcases eq_or_ne (r.machine,r.job) (w,j) with same | other
    · rw [same,Function.update_self] at at'
      cases at'
      obtain ⟨v,i,t⟩ := r
      obtain ⟨rfl,rfl⟩ := Prod.mk.inj same
      exact own t inside several
    · rw [Function.update_of_ne other] at at'
      exact (elsewhere r other).trans (counts.calls r q inside several at')
  · rw [position] at at'
    rcases eq_or_ne (v,i) (w,j) with same | other
    · obtain ⟨rfl,rfl⟩ := Prod.mk.inj same
      rw [Function.update_self] at at'
      cases at'
      exact before
    · rw [Function.update_of_ne other] at at'
      exact counts.before v i q at'

theorem onward (onward : Onward s s' w j p) (own : ∀ t < d.modelSize j,
      2 ≤ (d.tree j).workers.length → s.called ⟨w,j,t⟩ = p.calls (d.nIter j) t)
    (before : p.Before (d.nIter j)) : Counts d s' :=
  counts.goto onward.position (fun _ _ => by rw [onward.called])
    (fun t inside several => by rw [onward.called]; exact own t inside several) before

end Counts

/-- The end of a backward pass calls `allreduce` if there are other workers. -/
theorem called_reduce (direct : d.scheduled = false) (several : 2 ≤ (d.tree j).workers.length) :
    (s.reduce d w j t).called =
      Function.update s.called ⟨w,j,t⟩ (s.called ⟨w,j,t⟩ + 1) := by
  unfold reduce
  dsimp only
  rw [if_pos (show 1 < (d.tree j).workers.length from several),direct]
  rfl

theorem called_reduce_elsewhere (other : (r.machine,r.job) ≠ (w,j)) :
    (s.reduce d w j t).called r = s.called r := by
  have apart : r ≠ ⟨w,j,t⟩ := fun same => other (by rw [same])
  unfold reduce
  split
  · split
    · rfl
    · exact Function.update_of_ne apart ..
  · rfl

/-- The next iteration, or the last loop after the last one. -/
theorem Counts.iterate (counts : Counts d s) {s₁ : Training} {iter : Nat}
    (position : s₁.position = s.position)
    (elsewhere : ∀ r, (r.machine,r.job) ≠ (w,j) → s₁.called r = s.called r)
    (own : ∀ t < d.modelSize j, 2 ≤ (d.tree j).workers.length → s₁.called ⟨w,j,t⟩ = iter)
    (more : iter ≤ d.nIter j) : Counts d (s₁.iterate d w j iter) := by
  obtain ⟨p,onward,next⟩ := s₁.iterate_onward d w j iter
  refine counts.goto (p := p) (onward.position.trans (by rw [position]))
    (fun r other => by rw [onward.called]; exact elsewhere r other)
    (fun t inside several => ?_) ?_
  · rw [onward.called,own t inside several]
    rcases next with ⟨rfl,_⟩ | ⟨last,ends⟩
    · rfl
    · have last : iter = d.nIter j := by omega
      rcases ends with rfl | rfl <;> exact last
  · rcases next with ⟨rfl,below⟩ | ⟨_,rfl | rfl⟩
    · exact below
    · trivial
    · trivial

/-- A timeout of `execute_job` ends. -/
theorem Counts.elapse (counts : Counts d s) (direct : d.scheduled = false)
    (taken : s.elapse d w j = some s') : Counts d s' := by
  unfold Training.elapse at taken
  split at taken
  · rename_i iter t position
    cases taken
    have before := counts.before w j _ position
    have calls (u : Nat) (inside : u < d.modelSize j) (several : 2 ≤ (d.tree j).workers.length) :
        s.called ⟨w,j,u⟩ = iter := counts.calls ⟨w,j,u⟩ _ inside several position
    obtain ⟨p,onward,next⟩ := s.passForward_onward d w j t iter
    refine counts.onward onward (fun u inside several => ?_) ?_
    · rw [calls u inside several]
      rcases next with rfl | ⟨rfl,last⟩
      · rfl
      · exact (if_neg (by omega)).symm
    · rcases next with rfl | ⟨rfl,_⟩ <;> exact before
  · rename_i iter t position
    cases taken
    have before : iter < d.nIter j := counts.before w j _ position
    have calls (u : Nat) (inside : u < d.modelSize j) (several : 2 ≤ (d.tree j).workers.length) :
        s.called ⟨w,j,u⟩ = if t < u then iter + 1 else iter :=
      counts.calls ⟨w,j,u⟩ _ inside several position
    obtain ⟨_,_,same⟩ := s.reduce_fields d w j t
    have own (u : Nat) (inside : u < d.modelSize j) (several : 2 ≤ (d.tree j).workers.length) :
        (s.reduce d w j t).called ⟨w,j,u⟩ = if t ≤ u then iter + 1 else iter := by
      rw [called_reduce direct several]
      rcases eq_or_ne u t with rfl | other
      · rw [Function.update_self,calls u inside several,if_pos (Nat.le_refl u)]
        exact congrArg (· + 1) (if_neg (Nat.lt_irrefl u))
      · rw [Function.update_of_ne fun equal => other (congrArg TensorRef.tensorId equal),
          calls u inside several]
        exact if_congr (by omega) rfl rfl
    cases t with
    | zero =>
      exact counts.iterate same (fun r other => called_reduce_elsewhere other)
        (fun u inside several => by rw [own u inside several,if_pos (Nat.zero_le u)]) before
    | succ t =>
      refine counts.goto (p := .backward iter t) (congrArg (Function.update · (w,j) _) same)
        (fun r other => called_reduce_elsewhere other) own before
  · rename_i position
    cases taken
    exact counts.goto (p := .gone) rfl (fun _ _ => rfl)
      (fun u inside several => counts.calls ⟨w,j,u⟩ .leaving inside several position) trivial
  · cases taken

/-- A granted `execute_job` goes on. -/
theorem Counts.resumeJob (counts : Counts d s) (taken : s.resumeJob d w j = some s') :
    Counts d s' := by
  unfold Training.resumeJob at taken
  split at taken
  · rename_i iter t position
    cases taken
    exact counts.goto (p := .computing iter t) rfl (fun _ _ => rfl)
      (fun u inside several => counts.calls ⟨w,j,u⟩ (.forward iter t) inside several position)
      (counts.before w j (.forward iter t) position)
  · rename_i t position
    cases taken
    exact counts.goto (p := .settling t) rfl (fun _ _ => rfl)
      (fun u inside several => counts.calls ⟨w,j,u⟩ (.closing t) inside several position) trivial
  · rename_i t position
    cases taken
    obtain ⟨p,onward,ends⟩ := s.settle_onward d w j t
    refine counts.onward onward (fun u inside several => ?_) ?_
    · rw [counts.calls ⟨w,j,u⟩ _ inside several position]
      rcases ends with rfl | rfl <;> rfl
    · rcases ends with rfl | rfl <;> trivial
  · cases taken

theorem Counts.step (counts : Counts d s) (direct : d.scheduled = false) {label : Label}
    (taken : Training.step d label s = some s') : Counts d s' := by
  cases stepped taken with
  | place _ => exact counts.congr rfl rfl
  | @execute j w _ _ idle =>
    exact counts.iterate rfl (fun _ _ => rfl) (fun t _ _ => counts.idle ⟨w,j,t⟩ idle)
      (Nat.zero_le _)
  | elapse taken => exact counts.elapse direct taken
  | @job _ w j _ taken =>
    have counts : Counts d { s with granted := s.granted.erase (.job w j) } := counts.congr rfl rfl
    exact counts.resumeJob taken
  | launch _ _ => exact counts.congr rfl rfl
  | @finish r k g _ _ =>
    obtain ⟨_,_,position,called,_⟩ := finish_fields d _ r k g
    exact counts.congr position called
  | call scheduled _ _ =>
    rw [direct] at scheduled
    cases scheduled
  | @deliver fl _ _ =>
    obtain ⟨_,_,position,called,_⟩ := s.deliver_fields d fl
    exact counts.congr position called

theorem initial_counts (d : Plan) : Counts d (initial d) where
  idle _ _ := rfl
  calls := nofun
  before := nofun

/-- Call `k` of `allreduce` on a tensor has been made and has ended. -/
def Ended (s : Training) (r : TensorRef) (k : Nat) : Prop := k < s.called r ∧ s.stage r k = .ended

/-- Worker `w` has sent every packet of its allreduce `turn` of the layer. -/
def HasSent (d : Plan) (s : Training) (l : Layer) (w turn : Nat) : Prop :=
  ∀ i < d.cfg.pkts (d.size l), ∃ fl ∈ s.fabric.sent, fl.layer = l ∧ fl.link = .up w ∧
    fl.turn = turn ∧ fl.hop.packet.offset = i * d.cfg.numUpdates

/-- What the two locks of its tensors guarantee to worker `w` of job `j`. -/
structure Barrier (d : Plan) (s : Training) (w j : Nat) : Prop where
  /-- The forward pass of an iteration finds the allreduces of all earlier iterations ended. -/
  forward : ∀ iter t, s.position (w,j) = some (.computing iter t) → ∀ k < iter,
    Ended s ⟨w,j,t⟩ k ∧ ∀ v ∈ (d.tree j).workers, HasSent d s (j,t) v k
  /-- The backward pass of iteration `iter` makes call `iter`. -/
  backward : ∀ iter t, s.position (w,j) = some (.backward iter t) → s.called ⟨w,j,t⟩ = iter
  units : ∀ t < d.modelSize j, (s.locks ((⟨w,j,t⟩ : TensorRef).fpLock d.cfg)).available ≤ 1 ∧
    (s.locks ((⟨w,j,t⟩ : TensorRef).allreduceLock d.cfg)).available ≤ 1
  /-- A second request is granted when a packet of the same allreduce releases the lock. -/
  second : ∀ t k g, s.stage ⟨w,j,t⟩ k = .second g → .call ⟨w,j,t⟩ k ∈ s.granted →
    ∃ fl, s.causes (.call ⟨w,j,t⟩ k) = .packet fl ∧ fl.layer = (j,t) ∧ fl.turn = k ∧
      fl.hop.dest = .worker w
  /-- The tear-down comes after the allreduces of all iterations. -/
  tearDown : s.position (w,j) = some .leaving ∨ s.position (w,j) = some .gone →
    ∀ t < d.modelSize j, s.called ⟨w,j,t⟩ = d.nIter j ∧ ∀ k < d.nIter j, Ended s ⟨w,j,t⟩ k

theorem Coupled.ended (coupled : Coupled d exact lad s) (quiet : s.lastCall r = .ended)
    (below : k < s.called r) : Ended s r k := by
  refine ⟨below,?_⟩
  by_cases last : s.called r = k + 1
  · simpa only [lastCall,last] using quiet
  · exact coupled.orderly.leased.idle r k last

/-- An allreduce that has ended on one worker has been sent by all. -/
theorem Coupled.hasSent (coupled : Coupled d exact lad s) (sound : (d.layers s.jobs).Sound)
    {l : Layer} (real : d.Real (l.ref w)) (ended : Ended s (l.ref w) k)
    (quiet : s.lastCall (l.ref w) = .ended) (worker : v ∈ (d.tree l.1).workers) :
    HasSent d s l v k := by
  intro i inside
  have active : l ∈ (d.layers s.jobs).active :=
    coupled.paced.several (l.ref w) (Nat.ne_of_gt (Nat.zero_lt_of_lt ended.1))
  have pace := coupled.paced.pace _ real
  rw [quiet] at pace
  have flow := coupled.flow
  obtain ⟨slot,round⟩ := Traffic.round_lt sound (l := l) inside
  let lane := i % d.cfg.numSlots
  let rounds := (d.layers s.jobs).rounds l lane
  have all : (k + 1) * rounds ≤ (lad l lane).sent v :=
    calc (k + 1) * rounds ≤ s.fabric.done (l.ref w) * rounds :=
        Nat.mul_le_mul_right _ (pace.of_ended.2 ▸ ended.1)
      _ ≤ (lad l lane).got w := (flow.senders l active w real.1).base lane slot
      _ ≤ (lad l lane).sent v := (flow.ordered l active lane slot).got_le_sent real.1 worker
  have below : k * rounds + i / d.cfg.numSlots < (lad l lane).sent v := by
    rw [Nat.succ_mul] at all
    exact Nat.lt_of_lt_of_le (Nat.add_lt_add_left round _) all
  obtain ⟨fl,member,place,turn,offset⟩ :=
    (flow.sentLog l active lane slot v worker).exists_mem below
  refine ⟨fl,member,congrArg Place.layer place,congrArg Place.link place,?_,?_⟩
  · exact turn.trans (Lanes.of_pass round).2
  · exact offset.trans (congrArg (· * d.cfg.numUpdates) (Lanes.item_of_pass round k))

theorem barrier_of_coupled (coupled : Coupled d exact lad s) (counts : Counts d s)
    (sound : (d.layers s.jobs).Sound) (worker : w ∈ (d.tree j).workers)
    (several : 2 ≤ (d.tree j).workers.length) : Barrier d s w j where
  forward iter t position k below := by
    obtain ⟨_,inside⟩ := coupled.orderly.placed.within w j _ position
    have real : d.Real ⟨w,j,t⟩ := ⟨worker,inside⟩
    have quiet : s.lastCall ⟨w,j,t⟩ = .ended := coupled.orderly.quiet real (Or.inl (by
      rw [holdOf_at position]
      exact if_pos (Nat.le_refl t)))
    have count : s.called ⟨w,j,t⟩ = iter := counts.calls ⟨w,j,t⟩ _ inside several position
    have ended : Ended s ⟨w,j,t⟩ k := coupled.ended quiet (count ▸ below)
    exact ⟨ended,fun v member => coupled.hasSent (l := (j,t)) sound real ended quiet member⟩
  backward iter t position := by
    obtain ⟨_,inside⟩ := coupled.orderly.placed.within w j _ position
    rw [counts.calls ⟨w,j,t⟩ _ inside several position]
    exact if_neg (Nat.lt_irrefl t)
  units t inside := (coupled.orderly.leased.lease ⟨w,j,t⟩ ⟨worker,inside⟩).units
  second t k g stage granted := (coupled.orderly.leased.reasons ⟨w,j,t⟩ k g granted stage).2
  tearDown ends t inside := by
    have real : d.Real ⟨w,j,t⟩ := ⟨worker,inside⟩
    have count : s.called ⟨w,j,t⟩ = d.nIter j := by
      rcases ends with position | position <;>
        exact counts.calls ⟨w,j,t⟩ _ inside several position
    have quiet : s.lastCall ⟨w,j,t⟩ = .ended := coupled.orderly.quiet real (Or.inr (by
      rcases ends with position | position <;> exact holdOf_at position))
    exact ⟨count,fun k below => coupled.ended quiet (count ▸ below)⟩

/-- The iterations of a job on several workers are separated in every run, if the keys of the
layers differ in the low 32 bits and no offset wraps around. -/
theorem iterations_are_separated (d : Plan) (direct : d.scheduled = false) (cut : d.DistinctCut)
    (noWrap : d.NoWrap) (s : Training) (run : Runs.Run (step d) Runs.anyStep (initial d) s)
    (worker : w ∈ (d.tree j).workers) (several : 2 ≤ (d.tree j).workers.length) :
    Barrier d s w j := by
  obtain ⟨lad,coupled⟩ := coupled_of_run d direct cut noWrap run
  have counts : Counts d s := Runs.Run.invariant
    (fun _ _ _ counts _ taken => counts.step direct taken) run (initial_counts d)
  exact barrier_of_coupled coupled counts (Plan.layers_sound cut noWrap _) worker several

/-- Worker 0 is in the forward pass of the second iteration. -/
theorem iterations_are_separated_second_pass :
    ∃ s, Runs.Run (step (onePacket 2)) Runs.anyStep (initial (onePacket 2)) s ∧
      s.position (0,0) = some (.computing 1 0) ∧ Barrier (onePacket 2) s 0 0 := by
  have ends : (Runs.exec (step (onePacket 2)) Runs.anyStep
      (contributions ++ result 0 0 ++ [.resume (.job 0 0)]) (initial (onePacket 2))).map
      (fun s => s.position (0,0)) = some (some (.computing 1 0)) := by decide +kernel
  obtain ⟨s,run,position⟩ := Runs.exists_run_of_exec ends
  exact ⟨s,run,position,iterations_are_separated _ rfl (onePacket_distinctCut 2)
    (onePacket_noWrap 2) s run (by decide) (by decide)⟩

/-- A tensor of 2^32 + 1 packets, which `num_pkts_expected` counts as one. -/
def wrapping : Plan :=
  { twoPackets with
    size := fun _ => 2^32 + 1, positive := fun _ => by decide, sizeFits := fun _ => by decide }

/-- Worker 0 is in the forward pass of the second iteration, and nobody has sent the second packet
of the first. -/
theorem wrapped_iteration_begins_early :
    ∃ s, Runs.Run (step wrapping) Runs.anyStep (initial wrapping) s ∧
      s.position (0,0) = some (.computing 1 0) ∧
      ∀ w ∈ (wrapping.tree 0).workers, ¬HasSent wrapping s (0,0) w 0 := by
  have ends : (Runs.exec (step wrapping) Runs.anyStep
      (contributions ++ result 0 0 ++ [.resume (.job 0 0)]) (initial wrapping)).map
      (fun s => (s.position (0,0),s.fabric.sent.map fun fl => fl.hop.packet.offset)) =
      some (some (.computing 1 0),[0,0]) := by decide +kernel
  obtain ⟨s,run,view⟩ := Runs.exists_run_of_exec ends
  obtain ⟨position,offsets⟩ := Prod.mk.inj view
  refine ⟨s,run,position,fun w _ sent => ?_⟩
  obtain ⟨fl,member,_,_,_,offset⟩ := sent 1 (by decide +kernel)
  have listed : fl.hop.packet.offset ∈ s.fabric.sent.map fun fl => fl.hop.packet.offset :=
    List.mem_map_of_mem member
  rw [offsets,offset] at listed
  exact absurd listed (by decide)

end Training
end CloudSim
