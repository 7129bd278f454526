import CloudSim.RoundsClean
import CloudSim.TrainingSteps

/-! The tensor that a packet carries belongs to the last worker that contributed to it. A worker
deletes its tensors when it tears a job down. -/
namespace CloudSim

/-- What a switch sends carries the tensor of the packet that it received. -/
theorem Switch.sent_tensor {cfg : Config} {sw : Switch} {p : Packet}
    (sent : hop ∈ (sw.receivePacket cfg p).sent) : hop.packet.tensor = p.tensor := by
  have multicast (member : hop ∈ sw.multicastDownward p) : hop.packet.tensor = p.tensor := by
    obtain ⟨_,_,rfl⟩ := List.mem_map.mp member
    rfl
  simp only [receivePacket] at sent
  split at sent
  · split at sent
    · cases sent
    · simp only [contribute] at sent
      split at sent
      · cases sent
      · split at sent
        · exact multicast sent
        · rw [List.mem_singleton.mp sent]
          rfl
  · exact multicast sent

theorem Worker.sent_tensor {cfg : Config} {objs : Objects} {wk : Worker} {p : Packet}
    (sent : hop ∈ (wk.receivePacket cfg objs p).sent) : hop.packet.tensor = p.tensor := by
  simp only [receivePacket] at sent
  split at sent
  · cases sent
  · split at sent
    · cases sent
    · split at sent
      · cases sent
      · rw [List.mem_singleton.mp sent]
        rfl

namespace Fabric
variable {cfg : Config} {f : Fabric}

theorem tensor_of_fly {hops : List Hop} (tensor : ∀ hop ∈ hops, hop.packet.tensor = r)
    (member : fl ∈ fly turn hops) : fl.hop.packet.tensor = r := by
  obtain ⟨hop,sent,rfl⟩ := List.mem_map.mp member
  exact tensor hop sent

theorem inflight_deliver (member : fl ∈ (f.deliver cfg arrived).inflight) :
    fl ∈ f.inflight ∨ fl.hop.packet.tensor = arrived.hop.packet.tensor := by
  unfold deliver at member
  split at member <;> rcases List.mem_append.mp member with old | new
  case h_3.inr => exact Or.inr (tensor_of_fly (fun _ sent => Worker.sent_tensor sent) new)
  case h_1.inr => exact Or.inr (tensor_of_fly (fun _ sent => Switch.sent_tensor sent) new)
  case h_2.inr => exact Or.inr (tensor_of_fly (fun _ sent => Switch.sent_tensor sent) new)
  all_goals exact Or.inl (List.mem_of_mem_erase old)

theorem inflight_launch (member : fl ∈ (f.launch cfg r gradSize).inflight) :
    fl ∈ f.inflight ∨ fl.hop.packet.tensor = r := by
  rcases List.mem_append.mp member with old | new
  · exact Or.inl old
  · refine Or.inr (tensor_of_fly (fun hop sent => ?_) new)
    obtain ⟨_,_,rfl⟩ := List.mem_map.mp sent
    rfl

theorem inflight_finish (r : TensorRef) (gradSize turn : Nat) :
    (f.finish cfg r gradSize turn).inflight = f.inflight :=
  ((f.tally r gradSize).cleanUp_fields cfg r turn).2.1

end Fabric

namespace Training
variable {d : Plan} {s s' : Training} {extra : TensorRef → Nat}

def anyCause : Reason := fun _ _ _ => True

theorem Orderly.step (keys : d.DistinctKeys) (orderly : Orderly d anyCause s extra) {label : Label}
    (taken : step d label s = some s') : ∃ extra', Orderly d anyCause s' extra' := by
  cases stepped taken with
  | place _ => exact ⟨extra,orderly.renew _ _⟩
  | execute _ worker idle =>
    exact ⟨extra,(orderly.begins idle worker).iterate keys (fun _ _ => rfl) 0⟩
  | elapse taken => exact ⟨extra,orderly.elapses keys taken⟩
  | job granted taken => exact ⟨extra,orderly.resumeJob keys granted taken⟩
  | launch granted first => exact ⟨_,orderly.launch keys granted first fun _ => trivial⟩
  | finish granted second => exact ⟨extra,orderly.finish keys granted second⟩
  | call _ pending quiet => exact ⟨extra,orderly.call keys pending quiet⟩
  | deliver _ _ =>
    obtain ⟨extra',after,_⟩ := orderly.deliver keys _ fun _ _ _ _ _ _ _ _ _ _ => trivial
    exact ⟨extra',after⟩

/-- Every packet under way carries a tensor that exists. -/
def Live (s : Training) : Prop := ∀ fl ∈ s.fabric.inflight, s.Alive fl.hop.packet.tensor

/-- A worker tears a job down only when no packet under way carries one of its tensors. -/
def unread : Label → Training → Prop
  | .elapse w j,s => s.position (w,j) = some .leaving →
    ∀ fl ∈ s.fabric.inflight, (fl.hop.packet.tensor.machine,fl.hop.packet.tensor.job) ≠ (w,j)
  | _,_ => True

instance (label : Label) (s : Training) : Decidable (unread label s) :=
  match label with
  | .elapse _ _ => inferInstanceAs (Decidable (_ → ∀ _ ∈ _, _))
  | .place _ | .execute _ _ | .resume _ | .call _ | .deliver _ => isTrue trivial

theorem Orderly.alive (orderly : Orderly d good s extra) (member : .call r k ∈ s.granted) :
    s.Alive r := by
  intro gone
  obtain ⟨real,_,_,woken⟩ := orderly.leased.resumes member
  have lease := orderly.leased.lease r real
  rw [show s.holdOf r = .quit by simp only [holdOf,gone]; rfl] at lease
  exact Bool.false_ne_true
    ((lease.of_holds Hold.noConfusion Hold.noConfusion).2.2.symm.trans woken)

namespace Live

/-- Another position of `execute_job`, and no new packet. -/
theorem goto (live : Live s) {p : Position} (fabric : s'.fabric = s.fabric)
    (position : s'.position = Function.update s.position (w,j) (some p))
    (torn : p = .gone →
      ∀ fl ∈ s.fabric.inflight, (fl.hop.packet.tensor.machine,fl.hop.packet.tensor.job) ≠ (w,j)) :
    Live s' := by
  intro fl member
  rw [fabric] at member
  rw [Alive,position]
  by_cases own : (fl.hop.packet.tensor.machine,fl.hop.packet.tensor.job) = (w,j)
  · rw [own,Function.update_self]
    exact fun same => torn (Option.some.inj same) fl member own
  · rw [Function.update_of_ne own]
    exact live fl member

theorem send (live : Live s) (position : s'.position = s.position)
    (inflight : ∀ fl ∈ s'.fabric.inflight,
      fl ∈ s.fabric.inflight ∨ s.Alive fl.hop.packet.tensor) : Live s' := by
  intro fl member
  rw [Alive,position]
  exact (inflight fl member).elim (live fl) id

theorem step (live : Live s) (orderly : Orderly d anyCause s extra) {label : Label}
    (allowed : unread label s) (taken : Training.step d label s = some s') : Live s' := by
  cases stepped taken with
  | place _ => exact live.send rfl fun _ => Or.inl
  | @execute j w _ _ _ =>
    obtain ⟨p,onward,next⟩ := s.iterate_onward d w j 0
    exact live.goto onward.fabric onward.position fun gone => by
      rcases next with ⟨rfl,_⟩ | ⟨_,rfl | rfl⟩ <;> cases gone
  | elapse taken =>
    obtain ⟨fabric,p,position,torn⟩ := elapse_frame taken
    exact live.goto fabric position fun gone => allowed (torn gone)
  | job _ taken =>
    obtain ⟨p,onward,stays⟩ := resumeJob_frame taken
    exact live.goto onward.fabric onward.position fun gone => absurd gone stays
  | launch granted _ =>
    refine live.send rfl fun fl sent => (Fabric.inflight_launch sent).imp id fun same => ?_
    rw [same]
    exact orderly.alive granted
  | @finish r k g _ _ =>
    obtain ⟨fabric,_,position,_⟩ := finish_fields d _ r k g
    refine live.send position fun fl sent => Or.inl ?_
    rwa [fabric,Fabric.inflight_finish] at sent
  | call _ _ _ => exact live.send rfl fun _ => Or.inl
  | @deliver fl _ alive =>
    obtain ⟨fabric,_,position,_⟩ := s.deliver_fields d fl
    refine live.send position fun next sent => ?_
    rw [fabric] at sent
    exact (Fabric.inflight_deliver sent).imp id fun same => by rw [same]; exact alive

end Live

theorem live_of_unread (d : Plan) (keys : d.DistinctKeys)
    (run : Runs.Run (step d) unread (initial d) s) : Live s := by
  have kept (label : Label) (s s' : Training)
      (before : (∃ extra, Orderly d anyCause s extra) ∧ Live s) (allowed : unread label s)
      (taken : step d label s = some s') :
      (∃ extra, Orderly d anyCause s' extra) ∧ Live s' := by
    obtain ⟨⟨extra,orderly⟩,live⟩ := before
    exact ⟨orderly.step keys taken,live.step orderly allowed taken⟩
  exact (run.invariant kept ⟨⟨_,initial_orderly d anyCause⟩,fun _ member => by cases member⟩).2

/-- `Worker::receivePacket` and `Switch::receivePacket` look up tensors that exist, as long as no
worker tears a job down while one of its tensors is on a packet. A tear-down that ignores this
leaves a packet whose tensor is deleted. -/
theorem packets_carry_live_tensors (d : Plan) (keys : d.DistinctKeys) :
    (∀ s, Runs.Run (step d) unread (initial d) s → Live s) ∧
      ∀ s label s', Runs.Run (step d) Runs.anyStep (initial d) s → step d label s = some s' →
        ¬unread label s → ¬Live s' := by
  refine ⟨fun s run => live_of_unread d keys run,fun s label s' _ taken torn live => torn ?_⟩
  cases label with
  | elapse w j =>
    intro leaving fl member own
    have gone : s' = s.tearDown w j := by
      simp only [Training.step,Training.elapse,leaving] at taken
      exact (Option.some.inj taken).symm
    subst gone
    refine live fl member ?_
    rw [own]
    exact goto_self
  | place _ | execute _ _ | resume _ | call _ | deliver _ => trivial

open SingleAllreduce (threePorts)
open Rounds (oneTor shared)

/-- One job on two workers, with a tensor of one packet and without a scheduler. -/
def onePacket (nIter : Nat) : Plan where
  topo := threePorts
  cfg := ⟨1,1,0,fun _ t => t⟩
  chunkSize := 0
  tree _ := oneTor
  modelSize j := if j = 0 then 1 else 0
  size _ := 1
  nIter _ := nIter
  scheduled := false
  slots := by decide
  updates := by decide
  torOf := shared.torOf
  existing := shared.existing
  staffed := shared.staffed
  positive _ := by decide
  sizeFits _ := by decide

theorem onePacket_layer (inside : l.2 < (onePacket nIter).modelSize l.1) : l = (0,0) := by
  have inside : l.2 < if l.1 = 0 then 1 else 0 := inside
  split at inside
  · rename_i job
    exact Prod.ext job (Nat.lt_one_iff.mp inside)
  · cases inside

theorem onePacket_distinct (nIter : Nat) : (onePacket nIter).DistinctKeys :=
  fun l m real also _ => by rw [onePacket_layer real,onePacket_layer also]

/-- Both passes of worker `w` and the first half of its `allreduce`. -/
def iteration (w k : Nat) : List Label :=
  [.resume (.job w 0),.elapse w 0,.elapse w 0,.resume (.call ⟨w,0,0⟩ k)]

/-- The packet of iteration `k` on a hop. Worker `owner` contributed last. -/
def packet (k : Nat) (link : Link) (owner : Nat) : Label :=
  .deliver (((onePacket 1).traffic (fun _ => 1) [(0,0)]).flight ⟨(0,0),0,link⟩ k owner)

def contributions : List Label :=
  [.place 0,.execute 0 0,.execute 1 0] ++ iteration 0 0 ++ iteration 1 0 ++
    [packet 0 (.up 0) 0,packet 0 (.up 1) 1]

theorem packets_carry_live_tensors_one_packet :
    ∃ s, Runs.Run (step (onePacket 1)) unread (initial (onePacket 1)) s ∧
      s.fabric.inflight.map (fun fl => (fl.hop.dest,fl.hop.packet.tensor.machine)) =
        [(.worker 0,1),(.worker 1,1)] ∧ Live s := by
  have ends : (Runs.exec (step (onePacket 1)) unread contributions (initial (onePacket 1))).map
      (fun s => s.fabric.inflight.map fun fl => (fl.hop.dest,fl.hop.packet.tensor.machine)) =
      some [(.worker 0,1),(.worker 1,1)] := by decide +kernel
  obtain ⟨s,run,view⟩ := Runs.exists_run_of_exec ends
  exact ⟨s,run,view,(packets_carry_live_tensors _ (onePacket_distinct 1)).1 s run⟩

/-- Worker 1 ends its last iteration while the result that carries its tensor is on the way to
worker 0. -/
theorem fast_worker_deletes_tensor_in_flight :
    ∃ s, Runs.Run (step (onePacket 1)) Runs.anyStep (initial (onePacket 1)) s ∧
      ∃ fl ∈ s.fabric.inflight, fl.hop.dest = .worker 0 ∧ ¬s.Alive fl.hop.packet.tensor := by
  have ends : (Runs.exec (step (onePacket 1)) Runs.anyStep
      (contributions ++ [packet 0 (.down 1) 1,.resume (.call ⟨1,0,0⟩ 0),.resume (.job 1 0),
        .resume (.job 1 0),.elapse 1 0]) (initial (onePacket 1))).map
      (fun s => s.fabric.inflight.any fun fl =>
        decide (fl.hop.dest = .worker 0 ∧ ¬s.Alive fl.hop.packet.tensor)) = some true := by
    decide +kernel
  obtain ⟨s,run,view⟩ := Runs.exists_run_of_exec ends
  obtain ⟨fl,member,found⟩ := List.any_eq_true.mp view
  exact ⟨s,run,fl,member,of_decide_eq_true found⟩

end Training
end CloudSim
