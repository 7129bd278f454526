import CloudSim.Lifetime
import CloudSim.TrainingPackets

/-! Allreduces of one tensor that follow each other without a scheduler. A switch keeps its entries
under the key of the tensor alone, and one worker erases them at the end of its own allreduce,
however far the others are. -/
namespace CloudSim

namespace Fabric

/-- What the switches hold is of no later allreduce than their next clean-up, and no clean-up has
erased a contribution to a later one. -/
structure Spared (f : Fabric) : Prop where
  held : ∀ fl ∈ f.held, fl.turn ≤ f.cleaned fl.hop.dest fl.layer
  lost : f.lost = []

namespace Spared
variable {cfg : Config} {f f' : Fabric} {l : Layer}

theorem congr (spared : f.Spared) (held : f'.held = f.held) (lost : f'.lost = f.lost)
    (cleaned : f'.cleaned = f.cleaned) : f'.Spared :=
  ⟨by rw [held,cleaned]; exact spared.held,lost.trans spared.lost⟩

theorem clean (spared : f.Spared) (cfg : Config) (due : f.cleaned x l ≤ turn) :
    (f.clean cfg x l turn).Spared where
  held fl member := by
    have old := spared.held fl (List.mem_of_mem_filter member)
    simp only [Fabric.clean]
    rcases eq_or_ne fl.hop.dest x with rfl | other
    · rw [Function.update_self]
      rcases eq_or_ne fl.layer l with rfl | apart
      · rw [Function.update_self]
        exact old.trans (Nat.le_succ _)
      · rwa [Function.update_of_ne apart]
    · rwa [Function.update_of_ne other]
  lost := by
    simp only [Fabric.clean,spared.lost,List.nil_append]
    refine List.filter_eq_nil_iff.mpr fun fl member late => ?_
    obtain ⟨rfl,rfl,later⟩ := of_decide_eq_true late
    exact absurd (spared.held fl member) (Nat.not_le.mpr (Nat.lt_of_le_of_lt due later))

theorem cleanUp {tree : Tree} (spared : f.Spared) (wired : Wired tree l.1 f.net)
    (worker : w ∈ tree.workers) (due : ∀ x, tree.Cleans w x → f.cleaned x l ≤ turn) :
    (f.cleanUp cfg (l.ref w) turn).Spared := by
  rcases f.cleanUp_cases cfg wired worker turn with ⟨_,none⟩ | ⟨lower,_,one⟩ | ⟨lower,upper,both⟩
  · rw [none]
    exact spared
  · rw [one]
    exact spared.clean cfg (due _ lower)
  · rw [both]
    refine (spared.clean cfg (due _ lower)).clean cfg ?_
    have before := due _ upper
    simpa [Fabric.clean] using before

theorem deliver (spared : f.Spared)
    (timely : fl.hop.packet.upward = true → fl.turn ≤ f.cleaned fl.hop.dest fl.layer) :
    (f.deliver cfg fl).Spared := by
  have atSwitch : (f.atSwitch cfg fl).Spared := by
    refine ⟨fun new member => ?_,spared.lost⟩
    simp only [Fabric.atSwitch] at member
    split at member
    · rename_i counted
      rcases List.mem_append.mp member with old | arrived
      · exact spared.held new old
      · rw [List.mem_singleton.mp arrived]
        exact timely ((Bool.and_eq_true ..).mp counted).1
    · exact spared.held new member
  unfold Fabric.deliver
  split
  · exact atSwitch
  · exact atSwitch
  · exact spared.congr rfl rfl rfl

end Spared
end Fabric

namespace Training
variable {d : Plan} {s s' : Training} {lad : Ladders} {exact : Prop}

/-- The clean-ups at the end of a call come when they are due. -/
theorem Coupled.spared_finish (coupled : Coupled d exact lad s) (spared : s.fabric.Spared)
    {l : Layer} (member : .call (l.ref w) k ∈ s.granted)
    (second : s.stage (l.ref w) k = .second g) :
    (s.fabric.finish d.cfg (l.ref w) g k).Spared := by
  obtain ⟨called,real,last,active⟩ := coupled.caller member
  have tallied : (s.fabric.tally (l.ref w) g).Spared := spared.congr rfl rfl rfl
  have laid : Laid d.toDeployment s.jobs (s.fabric.tally (l.ref w) g).net :=
    coupled.stocked.laid.of_config (fun _ => rfl) rfl fun v =>
      (s.fabric.worker_tally (l.ref w) g v).1
  refine tallied.cleanUp (laid.wired l.1 active.1) real.1 fun x cleans => ?_
  have own : w = (d.tree l.1).cleanerOf x := (Tree.cleans_iff cleans.station).mp cleans
  have cleaned := coupled.paced.cleaned l x cleans.station
  rw [← own,last,second,if_neg nofun,called] at cleaned
  exact (Nat.succ.inj cleaned).le

theorem Coupled.spared (coupled : Coupled d exact lad s) (spared : s.fabric.Spared) {label : Label}
    (timely : afterCleanUps label s) (taken : Training.step d label s = some s') :
    s'.fabric.Spared := by
  cases stepped taken with
  | place _ => exact spared.congr rfl rfl rfl
  | @execute j w _ _ _ =>
    obtain ⟨p,onward,_⟩ := s.iterate_onward d w j 0
    rw [onward.fabric]
    exact spared
  | elapse taken =>
    rw [(elapse_frame taken).1]
    exact spared
  | job _ taken =>
    obtain ⟨p,onward,_⟩ := resumeJob_frame taken
    rw [onward.fabric]
    exact spared
  | launch _ _ => exact spared.congr rfl rfl rfl
  | @finish r k g granted second =>
    rw [(finish_fields d _ r k g).1]
    exact coupled.spared_finish (l := r.layer) (w := r.machine) spared granted second
  | call _ _ _ => exact spared.congr rfl rfl rfl
  | deliver _ _ =>
    rw [(s.deliver_fields d _).1]
    exact spared.deliver timely

/-- A run in which contributions reach the switches after the clean-ups that are due there. -/
theorem spared_of_afterCleanUps (d : Plan) (direct : d.scheduled = false) (cut : d.DistinctCut)
    (noWrap : d.NoWrap) (run : Runs.Run (step d) afterCleanUps (initial d) s) :
    s.fabric.shadowed = [] ∧ s.fabric.Spared := by
  have kept (label : Label) (s s' : Training)
      (before : (∃ lad, Coupled d True lad s) ∧ s.fabric.shadowed = [] ∧ s.fabric.Spared)
      (timely : afterCleanUps label s) (taken : step d label s = some s') :
      (∃ lad, Coupled d True lad s') ∧ s'.fabric.shadowed = [] ∧ s'.fabric.Spared := by
    obtain ⟨⟨lad,coupled⟩,shadowed,spared⟩ := before
    obtain ⟨next,same⟩ := coupled.step direct cut noWrap (fun _ => timely) taken
    exact ⟨next,(same trivial).trans shadowed,coupled.spared spared timely taken⟩
  exact (run.invariant kept
    ⟨⟨_,initial_coupled d True cut noWrap⟩,rfl,(fun _ member => by cases member),rfl⟩).2

theorem coupled_of_run (d : Plan) (direct : d.scheduled = false) (cut : d.DistinctCut)
    (noWrap : d.NoWrap) (run : Runs.Run (step d) ok (initial d) s) :
    ∃ lad, Coupled d False lad s := by
  have kept (label : Label) (s s' : Training) (before : ∃ lad, Coupled d False lad s)
      (_ : ok label s) (taken : step d label s = some s') : ∃ lad, Coupled d False lad s' := by
    obtain ⟨lad,coupled⟩ := before
    exact (coupled.step direct cut noWrap False.elim taken).1
  have reached := run.invariant kept ⟨_,initial_coupled d False cut noWrap⟩
  exact reached

/-- A contribution that comes early is dropped, or it is recorded where clean-ups at the end of
earlier calls erase it. -/
theorem Coupled.early (coupled : Coupled d exact lad s) (member : fl ∈ s.fabric.inflight)
    (early : ¬afterCleanUps (.deliver fl) s) :
    let f := s.fabric.deliver d.cfg fl
    fl ∈ f.shadowed ∨
      ∀ turn < fl.turn, fl ∈ (f.clean d.cfg fl.hop.dest fl.layer turn).lost := by
  have upward : fl.hop.packet.upward = true := by
    by_contra downward
    exact early fun upward => absurd upward downward
  obtain ⟨owner,_,_,stamp⟩ := coupled.flow.links.stamped fl member
  have direction : fl.place.link.upward = true := by
    rw [← upward]
    conv_rhs => rw [stamp]
    rfl
  have dest : fl.hop.dest = fl.place.link.dest (d.tree fl.layer.1) := by
    conv_lhs => rw [stamp]
    rfl
  have same : s.fabric.deliver d.cfg fl = s.fabric.atSwitch d.cfg fl := by
    cases link : fl.place.link with
    | up w => rw [link] at dest; simp only [Fabric.deliver,dest,Link.dest]
    | rise t => rw [link] at dest; simp only [Fabric.deliver,dest,Link.dest]
    | fall t | down w => rw [link] at direction; cases direction
  intro f
  rw [show f = _ from same]
  by_cases shadow :
      ((s.fabric.net.switch fl.hop.dest).receivePacket d.cfg fl.hop.packet).shadow = true
  · refine Or.inl ?_
    simp only [Fabric.atSwitch,if_pos shadow]
    exact List.mem_append_right _ (List.mem_singleton_self _)
  · refine Or.inr fun turn later => ?_
    simp only [Fabric.clean,Fabric.atSwitch,upward,Bool.eq_false_iff.mpr shadow]
    exact List.mem_append_right _ (List.mem_filter.mpr
      ⟨List.mem_append_right _ (List.mem_singleton_self _),decide_eq_true ⟨rfl,rfl,later⟩⟩)

/-- No contribution meets the entries of an earlier allreduce or is erased with them, as long as
contributions reach every switch after the clean-ups of earlier allreduces there. Every other
contribution is dropped, or recorded where a clean-up of an earlier allreduce erases it. -/
theorem clean_ups_spare_later_allreduces (d : Plan) (direct : d.scheduled = false)
    (cut : d.DistinctCut) (noWrap : d.NoWrap) :
    (∀ s, Runs.Run (step d) afterCleanUps (initial d) s →
      s.fabric.shadowed = [] ∧ s.fabric.lost = []) ∧
    ∀ s fl s', Runs.Run (step d) Runs.anyStep (initial d) s → step d (.deliver fl) s = some s' →
      ¬afterCleanUps (.deliver fl) s → fl ∈ s'.fabric.shadowed ∨
        ∀ turn < fl.turn, fl ∈ (s'.fabric.clean d.cfg fl.hop.dest fl.layer turn).lost := by
  refine ⟨fun s run => ?_,fun s fl s' run taken early => ?_⟩
  · obtain ⟨shadowed,spared⟩ := spared_of_afterCleanUps d direct cut noWrap run
    exact ⟨shadowed,spared.lost⟩
  · obtain ⟨lad,coupled⟩ := coupled_of_run d direct cut noWrap run
    cases stepped taken with
    | deliver member _ =>
      rw [(s.deliver_fields d fl).1]
      exact coupled.early member early

theorem onePacket_distinctCut (nIter : Nat) : (onePacket nIter).DistinctCut :=
  fun l m real also _ => by rw [onePacket_layer real,onePacket_layer also]

theorem onePacket_noWrap (nIter : Nat) : (onePacket nIter).NoWrap :=
  fun _ _ _ => Config.noWrap_of_bound Nat.one_pos Nat.one_pos (show 1 + 1 * 1 < 2^32 by decide)

/-- Worker `w` has the result of iteration `k`, and its call ends. -/
def result (w k : Nat) : List Label :=
  [packet k (.down w) 1,.resume (.call ⟨w,0,0⟩ k)]

theorem clean_ups_spare_later_allreduces_two_iterations :
    ∃ s, Runs.Run (step (onePacket 2)) afterCleanUps (initial (onePacket 2)) s ∧
      (s.fabric.held.map Flight.turn = [1,1] ∧ s.fabric.cleaned (.tor 0) (0,0) = 1) ∧
      s.fabric.shadowed = [] ∧ s.fabric.lost = [] := by
  have ends : (Runs.exec (step (onePacket 2)) afterCleanUps
      (contributions ++ result 0 0 ++ result 1 0 ++ iteration 0 1 ++ iteration 1 1 ++
        [packet 1 (.up 0) 0,packet 1 (.up 1) 1]) (initial (onePacket 2))).map
      (fun s => decide (s.fabric.held.map Flight.turn = [1,1] ∧
        s.fabric.cleaned (.tor 0) (0,0) = 1)) = some true := by decide +kernel
  obtain ⟨s,run,view⟩ := Runs.exists_run_of_exec ends
  exact ⟨s,run,of_decide_eq_true view,
    (clean_ups_spare_later_allreduces _ rfl (onePacket_distinctCut 2) (onePacket_noWrap 2)).1 s run⟩

/-- The same with a tensor of two packets, which go one after the other. -/
def twoPackets : Plan :=
  { onePacket 2 with
    size := fun _ => 2, positive := fun _ => Nat.succ_pos 1,
    sizeFits := fun _ => (by decide : 1 + 1 < 2^64) }

/-- A packet of it: round `q` of all iterations. -/
def round (q : Nat) (link : Link) (owner : Nat) : Label :=
  .deliver ((twoPackets.traffic (fun _ => 2) [(0,0)]).flight ⟨(0,0),0,link⟩ q owner)

/-- Worker 1 has its result and contributes to the next allreduce before worker 0 has cleaned the
ToR. After one round its packet is dropped, after two it is recorded and then erased. -/
theorem fast_worker_meets_old_entries :
    (∃ s, Runs.Run (step (onePacket 2)) Runs.anyStep (initial (onePacket 2)) s ∧
      s.fabric.shadowed ≠ []) ∧
    ∃ s, Runs.Run (step twoPackets) Runs.anyStep (initial twoPackets) s ∧ s.fabric.lost ≠ [] := by
  constructor
  · have ends : (Runs.exec (step (onePacket 2)) Runs.anyStep
        (contributions ++ result 1 0 ++ iteration 1 1 ++ [packet 1 (.up 1) 1])
        (initial (onePacket 2))).map (fun s => s.fabric.shadowed.length) = some 1 := by
      decide +kernel
    obtain ⟨s,run,shadowed⟩ := Runs.exists_run_of_exec ends
    refine ⟨s,run,fun none => ?_⟩
    rw [none] at shadowed
    cases shadowed
  · have ends : (Runs.exec (step twoPackets) Runs.anyStep
        ([.place 0,.execute 0 0,.execute 1 0] ++ iteration 0 0 ++ iteration 1 0 ++
          [round 0 (.up 0) 0,round 0 (.up 1) 1,round 0 (.down 0) 1,round 0 (.down 1) 1,
            round 1 (.up 0) 1,round 1 (.up 1) 1,round 1 (.down 1) 1,.resume (.call ⟨1,0,0⟩ 0)] ++
          iteration 1 1 ++
          [round 2 (.up 1) 1,round 1 (.down 0) 1,.resume (.call ⟨0,0,0⟩ 0)])
        (initial twoPackets)).map (fun s => s.fabric.lost.length) = some 1 := by
      decide +kernel
    obtain ⟨s,run,lost⟩ := Runs.exists_run_of_exec ends
    refine ⟨s,run,fun none => ?_⟩
    rw [none] at lost
    cases lost

end Training
end CloudSim
