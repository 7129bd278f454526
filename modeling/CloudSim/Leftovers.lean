import CloudSim.Barrier
import CloudSim.Ledger

/-! What the maps of switches and workers hold in runs without a collective scheduler. An entry is
of an allreduce that is still to be cleaned up or received, so a job that all its workers have left
leaves none behind. -/
namespace CloudSim
namespace Training
variable {d : Plan} {exact : Prop} {lad : Ladders} {s s' : Training} {l : Layer} {w k : Nat}

/-- A switch holds entries of a tensor that some worker has begun more allreduces of than the switch
was cleaned up after; a worker holds offsets of tensors of its own. -/
structure Owed (d : Plan) (jobs : List Nat) (f : Fabric) : Prop where
  switches : ∀ x tkey, (∀ w, x ≠ .worker w) → (f.net.switch x).holds tkey →
    ∃ l ∈ d.Layers jobs, l.cut d.cfg = tkey ∧ (d.tree l.1).IsStation x ∧
      ∃ w ∈ (d.tree l.1).workers, f.cleaned x l < f.begun (l.ref w)
  workers : ∀ w tkey, (f.net.worker w).received tkey ≠ ∅ →
    ∃ l ∈ d.Layers jobs, l.cut d.cfg = tkey ∧ w ∈ (d.tree l.1).workers

namespace Coupled
variable (coupled : Coupled d exact lad s)
include coupled

theorem cleaned_le_done (active : l ∈ d.Layers s.jobs) (station : (d.tree l.1).IsStation x) :
    s.fabric.cleaned x l ≤ s.fabric.done (l.ref ((d.tree l.1).cleanerOf x)) := by
  have cleaned := coupled.paced.cleaned l x station
  have real : d.Real (l.ref ((d.tree l.1).cleanerOf x)) := ⟨Tree.cleanerOf_mem station,active.2.1⟩
  have pace := coupled.paced.pace _ real
  generalize l.ref ((d.tree l.1).cleanerOf x) = r at cleaned pace ⊢
  generalize s.lastCall r = call at *
  generalize s.called r = called at *
  generalize s.fabric.begun r = begun at *
  generalize s.fabric.done r = done at *
  cases pace with
  | ended =>
    rw [if_pos rfl] at cleaned
    omega
  | first | sent | received =>
    rw [if_neg Suspension.noConfusion] at cleaned
    omega

variable (owed : Owed d s.jobs s.fabric)
include owed

theorem owed_deliver (member : fl ∈ s.fabric.inflight) :
    Owed d s.jobs (s.fabric.deliver d.cfg fl) := by
  obtain ⟨begun,_,cleaned⟩ := s.fabric.deliver_fields d.cfg fl
  have proper := coupled.flow.links.proper fl member
  refine ⟨fun x tkey switch holds => ?_,fun w tkey some => ?_⟩
  · rw [begun,cleaned]
    rcases s.fabric.holds_deliver d.cfg fl switch holds with ⟨rfl,rfl⟩ | before
    · obtain ⟨owner,_,_,stamp⟩ := coupled.flow.links.stamped fl member
      have dest : fl.hop.dest = fl.place.link.dest (d.tree fl.layer.1) := by
        conv_lhs => rw [stamp]
        rfl
      have station : (d.tree fl.layer.1).IsStation fl.hop.dest := by
        rw [dest] at switch ⊢
        exact Link.dest_station proper.2.2 switch
      have active : fl.layer ∈ d.Layers s.jobs := proper.1
      obtain ⟨w,worker,behind⟩ := coupled.flow.before_end member (Tree.cleanerOf_mem station)
        (Or.inl (Tree.cleanerOf_above station))
      exact ⟨fl.layer,active,rfl,station,w,worker,
        Nat.lt_of_le_of_lt (coupled.cleaned_le_done active station) behind⟩
    · exact owed.switches x tkey switch before
  · rcases s.fabric.received_deliver d.cfg fl w tkey with ⟨dest,rfl⟩ | same
    · have valid := proper.2.2
      rw [show fl.place.link = .down w from Flight.link_down.mpr dest] at valid
      exact ⟨fl.layer,proper.1,rfl,valid⟩
    · rw [same] at some
      exact owed.workers w tkey some

/-- The end of a call erases the entries that the clean-up accounts for. -/
theorem owed_finish (sound : (d.layers s.jobs).Sound) (member : .call (l.ref w) k ∈ s.granted)
    (second : s.stage (l.ref w) k = .second g) :
    Owed d s.jobs (s.fabric.finish d.cfg (l.ref w) g k) := by
  obtain ⟨_,real,_,active⟩ := coupled.caller member
  obtain ⟨_,_,begins,cleaned,_⟩ := coupled.finish_fabric sound member second
  set tallied := s.fabric.tally (l.ref w) g
  have tallies (v : Nat) := s.fabric.worker_tally (l.ref w) g v
  have laid : Laid d.toDeployment s.jobs tallied.net :=
    coupled.stocked.laid.of_config (fun _ => rfl) rfl fun v => (tallies v).1
  have wired := laid.wired l.1 active.1
  refine ⟨fun x tkey switch holds => ?_,fun v tkey some => ?_⟩
  · obtain ⟨before,kept⟩ := tallied.holds_cleanUp d.cfg wired real.1 k switch holds
    obtain ⟨m,also,cut,station,v,worker,behind⟩ := owed.switches x tkey switch before
    refine ⟨m,also,cut,station,v,worker,?_⟩
    have other : m.ref ((d.tree m.1).cleanerOf x) ≠ l.ref w := by
      intro same
      obtain ⟨rfl,own⟩ := Layer.ref_inj same
      exact kept ⟨(Tree.cleans_iff station).mpr own.symm,cut.symm⟩
    rw [cleaned m x station,if_neg other,begins]
    exact behind
  · refine owed.workers v tkey fun none => some ?_
    have same : (tallied.cleanUp d.cfg (l.ref w) k).net.worker = tallied.net.worker :=
      (tallied.cleanUp_fields d.cfg (l.ref w) k).2.2.2.2.2
    change ((tallied.cleanUp d.cfg (l.ref w) k).net.worker v).received tkey = ∅
    rw [same,Worker.received,(tallies v).2]
    exact none

end Coupled

theorem Owed.step (owed : Owed d s.jobs s.fabric) (coupled : Coupled d exact lad s)
    (sound : (d.layers s.jobs).Sound) {label : Label} (taken : Training.step d label s = some s') :
    Owed d s'.jobs s'.fabric := by
  cases stepped taken with
  | @place j fresh =>
    have records := (d.topo.setSwitchNumUpdates_edits j (d.tree j).workers (d.tree j).tors
      s.fabric.net).records
    have more (m : Layer) (active : m ∈ d.Layers s.jobs) : m ∈ d.Layers (s.jobs ++ [j]) :=
      ⟨List.mem_append_left _ active.1,active.2⟩
    refine ⟨fun x tkey switch holds => ?_,fun w tkey some => ?_⟩
    · obtain ⟨l,active,rest⟩ :=
        owed.switches x tkey switch ((Flow.holds_of_records records x tkey).mp holds)
      exact ⟨l,more l active,rest⟩
    · obtain ⟨l,active,rest⟩ := owed.workers w tkey fun none => some <|
        (Flow.received_of_records records w tkey).trans none
      exact ⟨l,more l active,rest⟩
  | @execute j w _ _ _ =>
    obtain ⟨p,onward,_⟩ := s.iterate_onward d w j 0
    rw [onward.fabric,onward.jobs]
    exact owed
  | elapse taken =>
    rw [(elapse_frame taken).1,elapse_jobs taken]
    exact owed
  | job _ taken =>
    obtain ⟨p,onward,_⟩ := resumeJob_frame taken
    rw [onward.fabric,onward.jobs]
    exact owed
  | @launch r k _ _ =>
    refine ⟨fun x tkey switch holds => ?_,owed.workers⟩
    obtain ⟨l,active,cut,station,w,worker,behind⟩ := owed.switches x tkey switch holds
    refine ⟨l,active,cut,station,w,worker,Nat.lt_of_lt_of_le behind ?_⟩
    change s.fabric.begun (l.ref w) ≤
      Function.update s.fabric.begun r (s.fabric.begun r + 1) (l.ref w)
    rcases eq_or_ne (l.ref w) r with same | other
    · rw [same,Function.update_self]
      exact Nat.le_succ _
    · rw [Function.update_of_ne other]
  | @finish r k g granted second =>
    obtain ⟨fabric,jobs,_⟩ :=
      { s with granted := s.granted.erase (.call r k) }.finish_fields d r k g
    rw [fabric,jobs]
    exact coupled.owed_finish (l := r.layer) (w := r.machine) owed sound granted second
  | call _ _ _ => exact owed
  | deliver member _ =>
    obtain ⟨fabric,jobs,_⟩ := s.deliver_fields d _
    rw [fabric,jobs]
    exact coupled.owed_deliver owed member

/-- The rest of the job of worker `w` after its last call. -/
def leave (w : Nat) : List Label := [.resume (.job w 0),.resume (.job w 0),.elapse w 0]

end Training
end CloudSim
