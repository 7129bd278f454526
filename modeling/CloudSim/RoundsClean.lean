import CloudSim.RoundsStanding
import CloudSim.SingleAllreduce

/-! Every round starts from clean switches: the clean-ups of a round together reach all its
switches before its last call ends, and no packet comes after them. -/
namespace CloudSim

namespace Rounds
variable {d : Deployment} {s : Rounds} {size base : Layer → Nat} {lad : Ladders} {l : Layer}
  {w : Nat}

namespace Inv

theorem caller (inv : Inv d size base lad s) (calls : s.stage (l.ref w) ≠ .idle) :
    w ∈ (d.tree l.1).workers := by
  by_contra outside
  exact calls (inv.strangers (l.ref w) outside)

structure Progress (d : Deployment) (size base : Layer → Nat) (s : Rounds) (l : Layer) (w : Nat)
    (now : CallStage) (f : Fabric) : Prop where
  rests : now.rests = (s.stage (l.ref w)).rests
  stays : s.stage (l.ref w) = .idle → now = .idle
  reduced : (f.objs.tensor (l.ref w)).allreducedSize =
    (s.fabric.objs.tensor (l.ref w)).allreducedSize
  here : Standing (l ∈ s.opened) (size l) (base l) (d.following l (base l)) now
    (f.begun (l.ref w)) (f.done (l.ref w)) (f.objs.tensor (l.ref w)).allreducedSize
  elsewhere : ∀ r, r ≠ l.ref w → f.begun r = s.fabric.begun r ∧ f.done r = s.fabric.done r ∧
    (f.objs.tensor r).allreducedSize = (s.fabric.objs.tensor r).allreducedSize
  allocated : f.objs.numWorkersAllocated = s.fabric.objs.numWorkersAllocated
  sizes : ∀ r, (f.objs.tensor r).size = (s.fabric.objs.tensor r).size
  cleaned : f.cleaned = s.fabric.cleaned
  noShadow : f.shadowed = []

theorem proceed (inv : Inv d size base lad s) {now : CallStage} {f : Fabric}
    (progress : Progress d size base s l w now f) (laid : Laid d s.jobs f.net)
    (owned : ∀ x tkey, (∀ w, x ≠ .worker w) → (f.net.switch x).holds tkey →
      ∃ l ∈ s.opened, l.cut d.cfg = tkey ∧ (d.tree l.1).IsStation x ∧ s.fabric.cleaned x l = 0 ∧
        ∃ w ∈ (d.tree l.1).workers, 0 < f.begun (l.ref w))
    (received : ∀ w tkey, (f.net.worker w).received tkey ≠ ∅ →
      ∃ l ∈ s.opened, l.cut d.cfg = tkey ∧ w ∈ (d.tree l.1).workers)
    (flow : Flow (d.traffic size s.opened) True lad' f) :
    Inv d size base lad' { s with fabric := f, stage := Function.update s.stage (l.ref w) now } := by
  have rests (q : TensorRef) :
      (Function.update s.stage (l.ref w) now q).rests = (s.stage q).rests := by
    rcases eq_or_ne q (l.ref w) with rfl | other
    · rw [Function.update_self,progress.rests]
    · rw [Function.update_of_ne other]
  refine
    { inv with
      laid := laid
      allocated := ?_
      sizes := ?_
      sharing := ?_
      strangers := ?_
      standing := ?_
      cleaned := ?_
      uncleaned := ?_
      owned := ?_
      received := received
      flow := flow
      noShadow := progress.noShadow }
  · intro j
    rw [progress.allocated]
    exact inv.allocated j
  · exact fun r => (progress.sizes r).trans (inv.sizes r)
  · intro q some
    dsimp only at some
    rcases eq_or_ne q (l.ref w) with rfl | other
    · rw [Function.update_self,progress.reduced] at some
      exact inv.sharing _ (some.imp_left fun calls idle => calls (progress.stays idle))
    · rw [Function.update_of_ne other,(progress.elsewhere q other).2.2] at some
      exact inv.sharing q some
  · intro q outside
    dsimp only
    rcases eq_or_ne q (l.ref w) with rfl | other
    · rw [Function.update_self]
      exact progress.stays (inv.strangers _ outside)
    · rw [Function.update_of_ne other]
      exact inv.strangers q outside
  · intro m v worker
    have before := inv.standing m v worker
    dsimp only
    rcases eq_or_ne (m.ref v) (l.ref w) with same | other
    · obtain ⟨rfl,rfl⟩ := Layer.ref_inj same
      rw [Function.update_self]
      exact progress.here
    · obtain ⟨begun,done,reduced⟩ := progress.elsewhere _ other
      rw [Function.update_of_ne other,begun,done,reduced]
      exact before
  · intro m x station
    simp only [rests,progress.cleaned]
    exact inv.cleaned m x station
  · intro m x station
    simp only [rests,progress.cleaned]
    exact inv.uncleaned m x station
  · rw [progress.cleaned]
    exact owned

theorem launch (inv : Inv d size base lad s) (called : s.stage (l.ref w) = .called) :
    let gradSize := Worker.allreduceSize d.chunkSize (s.fabric.objs.tensor (l.ref w))
    ∃ lad', Inv d size base lad'
      { s with
        fabric := s.fabric.launch d.cfg (l.ref w) gradSize
        stage := Function.update s.stage (l.ref w) (.sending gradSize) } := by
  have calls : s.stage (l.ref w) ≠ .idle := by rw [called]; exact CallStage.noConfusion
  have worker := inv.caller calls
  have mine := inv.standing l w worker
  rw [called] at mine
  obtain ⟨active,begun,done,reduced⟩ := mine.of_called
  have whole : Worker.allreduceSize d.chunkSize (s.fabric.objs.tensor (l.ref w)) = size l := by
    rw [d.allreduceSize_eq (inv.below l) (inv.sizes _) reduced,inv.sized l active]
  have tensor (r : TensorRef) :
      ((s.fabric.launch d.cfg (l.ref w) (size l)).objs.tensor r).size =
        (s.fabric.objs.tensor r).size ∧
      ((s.fabric.launch d.cfg (l.ref w) (size l)).objs.tensor r).allreducedSize =
        (s.fabric.objs.tensor r).allreducedSize := by
    change (Function.update s.fabric.objs.tensor (l.ref w) _ r).size = _ ∧
      (Function.update s.fabric.objs.tensor (l.ref w) _ r).allreducedSize = _
    rcases eq_or_ne r (l.ref w) with rfl | other
    · rw [Function.update_self]; exact ⟨rfl,rfl⟩
    · rw [Function.update_of_ne other]; exact ⟨rfl,rfl⟩
  have begins (r : TensorRef) : (s.fabric.launch d.cfg (l.ref w) (size l)).begun r =
      Function.update s.fabric.begun (l.ref w) 1 r := by
    change Function.update s.fabric.begun (l.ref w) (s.fabric.begun (l.ref w) + 1) r = _
    rw [begun]
  intro gradSize
  rw [show gradSize = size l from whole]
  refine ⟨_,inv.proceed ⟨by rw [called]; rfl,fun idle => absurd idle calls,(tensor _).2,?_,?_,rfl,
      fun r => (tensor r).1,rfl,inv.noShadow⟩ inv.laid ?_ inv.received
    (inv.flow.launch inv.sound active worker (begun.trans done.symm))⟩
  · rw [begins,Function.update_self,(tensor _).2,reduced,
      show (s.fabric.launch d.cfg (l.ref w) (size l)).done (l.ref w) = 0 from done]
    exact .sending active
  · exact fun r other => ⟨by rw [begins,Function.update_of_ne other],rfl,(tensor r).2⟩
  · intro x tkey switch holds
    obtain ⟨m,also,cut,station,uncleaned,v,member,first⟩ := inv.owned x tkey switch holds
    refine ⟨m,also,cut,station,uncleaned,v,member,?_⟩
    rw [begins]
    rcases eq_or_ne (m.ref v) (l.ref w) with same | other
    · rw [same,Function.update_self]; exact Nat.one_pos
    · rw [Function.update_of_ne other]; exact first

section deliver
variable (inv : Inv d size base lad s) (member : fl ∈ s.fabric.inflight)
include inv member

/-- The switch that a packet of a round reaches has not been cleaned up in this round. -/
theorem arrives_early (station : (d.tree fl.layer.1).IsStation fl.hop.dest) :
    s.fabric.cleaned fl.hop.dest fl.layer = 0 := by
  refine inv.uncleaned _ _ station fun active => ?_
  have worker := Tree.cleanerOf_mem station
  obtain ⟨w,also,behind⟩ := inv.flow.before_end member worker
    (Or.inl (Tree.cleanerOf_above station))
  have once := (inv.standing _ w also).begun_le
  rw [Bool.eq_false_iff]
  intro rests
  have ended := ((inv.standing _ _ worker).of_rests rests active).2.1
  omega

theorem owned_deliver (x : Node) (tkey : Nat) (switch : ∀ w, x ≠ .worker w)
    (holds : ((s.fabric.deliver d.cfg fl).net.switch x).holds tkey) :
    ∃ l ∈ s.opened, l.cut d.cfg = tkey ∧ (d.tree l.1).IsStation x ∧ s.fabric.cleaned x l = 0 ∧
      ∃ w ∈ (d.tree l.1).workers, 0 < (s.fabric.deliver d.cfg fl).begun (l.ref w) := by
  rw [(s.fabric.deliver_fields d.cfg fl).1]
  rcases s.fabric.holds_deliver d.cfg fl switch holds with ⟨rfl,rfl⟩ | before
  · obtain ⟨owner,worker,launched,stamp⟩ := inv.flow.links.stamped fl member
    have proper := inv.flow.links.proper fl member
    have dest : fl.hop.dest = fl.place.link.dest (d.tree fl.layer.1) := by
      conv_lhs => rw [stamp]
      rfl
    have station : (d.tree fl.layer.1).IsStation fl.hop.dest := by
      rw [dest] at switch ⊢
      exact Link.dest_station proper.2.2 switch
    exact ⟨fl.layer,proper.1,rfl,station,inv.arrives_early member station,owner,worker,launched⟩
  · exact inv.owned x tkey switch before

theorem received_deliver (w tkey : Nat)
    (some : ((s.fabric.deliver d.cfg fl).net.worker w).received tkey ≠ ∅) :
    ∃ l ∈ s.opened, l.cut d.cfg = tkey ∧ w ∈ (d.tree l.1).workers := by
  rcases s.fabric.received_deliver d.cfg fl w tkey with ⟨dest,rfl⟩ | same
  · have proper := inv.flow.links.proper fl member
    have valid := proper.2.2
    rw [show fl.place.link = .down w from Flight.link_down.mpr dest] at valid
    exact ⟨fl.layer,proper.1,rfl,valid⟩
  · rw [same] at some
    exact inv.received w tkey some

theorem deliver : ∃ lad', Inv d size base lad'
    { s with fabric := s.fabric.deliver d.cfg fl, stage := s.woken d fl } := by
  have active : fl.layer ∈ s.opened := (inv.flow.links.proper fl member).1
  obtain ⟨begun,objs,cleaned⟩ := s.fabric.deliver_fields d.cfg fl
  obtain ⟨tors,core,workers⟩ := s.fabric.config_deliver d.cfg fl
  have laid := inv.laid.of_config tors core workers
  obtain ⟨v,also,first⟩ := inv.flow.turn_lt member
  have turn : fl.turn = 0 := by
    have once := (inv.standing _ v also).begun_le
    omega
  obtain ⟨⟨lad',flow⟩,kept⟩ := inv.flow.deliver inv.sound member fun _ _ => by
    rw [turn]; exact Nat.zero_le _
  have noShadow := (kept trivial).trans inv.noShadow
  have goes (r : TensorRef) (now : CallStage) (w : Nat) (same : fl.layer.ref w = r)
      (rests : now.rests = (s.stage r).rests) (stays : s.stage r = .idle → now = .idle)
      (here : Standing (fl.layer ∈ s.opened) (size fl.layer) (base fl.layer)
        (d.following fl.layer (base fl.layer)) now (s.fabric.begun r)
        ((s.fabric.deliver d.cfg fl).done r) (s.fabric.objs.tensor r).allreducedSize)
      (others : ∀ q, q ≠ r → (s.fabric.deliver d.cfg fl).done q = s.fabric.done q) :
      Inv d size base lad'
        { s with fabric := s.fabric.deliver d.cfg fl, stage := Function.update s.stage r now } := by
    subst same
    refine inv.proceed ⟨rests,stays,by rw [objs],by rw [begun,objs]; exact here,fun q other => ?_,
      by rw [objs],fun q => by rw [objs],cleaned,noShadow⟩ laid (inv.owned_deliver member)
      (inv.received_deliver member) flow
    rw [begun,objs]
    exact ⟨rfl,others q other,rfl⟩
  have done := s.fabric.done_deliver d.cfg fl
  by_cases ends : ∃ w, fl.hop.dest = .worker w ∧ s.fabric.releases d.cfg fl = true
  · obtain ⟨w,dest,releases⟩ := ends
    have worker : w ∈ (d.tree fl.layer.1).workers := by
      have valid := (inv.flow.links.proper fl member).2.2
      rwa [show fl.place.link = .down w from Flight.link_down.mpr dest] at valid
    simp only [dest,releases,if_true] at done
    have ended : (s.fabric.deliver d.cfg fl).done (fl.layer.ref w) ≤
        (s.fabric.deliver d.cfg fl).begun (fl.layer.ref w) :=
      (flow.senders fl.layer active w worker).ended_le
    rw [done,Function.update_self,begun] at ended
    obtain ⟨_,sending,one,none,reduced⟩ := (inv.standing _ w worker).of_outstanding ended
    have woken : s.woken d fl =
        Function.update s.stage (fl.layer.ref w) (.released (size fl.layer)) := by
      simp only [Rounds.woken,dest,sending,releases]
    rw [woken]
    refine ⟨lad',goes _ _ w rfl (by rw [sending]; rfl) ?_ ?_ fun q other => ?_⟩
    · rw [sending]; exact CallStage.noConfusion
    · rw [done,Function.update_self,one,none,reduced]
      exact .released active
    · rw [done,Function.update_of_ne other]
  · have stays : (s.fabric.deliver d.cfg fl).done = s.fabric.done ∧ s.woken d fl = s.stage := by
      rcases dest : fl.hop.dest with t | _ | w
      case worker =>
        have quiet : s.fabric.releases d.cfg fl = false :=
          Bool.eq_false_iff.mpr fun releases => ends ⟨w,dest,releases⟩
        simp only [dest,quiet,Bool.false_eq_true,if_false] at done
        refine ⟨done,?_⟩
        simp only [Rounds.woken,dest,quiet]
        cases s.stage (fl.layer.ref w) <;> rfl
      all_goals
        simp only [dest] at done
        exact ⟨done,by simp only [Rounds.woken,dest]⟩
    rw [stays.2,← Function.update_eq_self (fl.layer.ref v) s.stage]
    refine ⟨lad',goes _ _ v rfl rfl (fun idle => idle) ?_ fun q _ => by rw [stays.1]⟩
    rw [stays.1]
    exact inv.standing _ v also

end deliver

section finish
variable (inv : Inv d size base lad s) (released : s.stage (l.ref w) = .released gradSize)

include inv released

theorem tally_flow : (l ∈ s.opened ∧ gradSize = size l ∧ s.fabric.begun (l.ref w) = 1 ∧
      s.fabric.done (l.ref w) = 1 ∧ (s.fabric.objs.tensor (l.ref w)).allreducedSize = base l) ∧
    w ∈ (d.tree l.1).workers ∧ Laid d s.jobs (s.fabric.tally (l.ref w) gradSize).net ∧
    Flow (d.traffic size s.opened) True lad (s.fabric.tally (l.ref w) gradSize) := by
  have worker := inv.caller (l := l) (w := w) (by rw [released]; exact CallStage.noConfusion)
  have mine := inv.standing l w worker
  rw [released] at mine
  have facts := mine.of_released
  have laid : Laid d s.jobs (s.fabric.tally (l.ref w) gradSize).net :=
    inv.laid.of_config (fun _ => rfl) rfl fun v => (s.fabric.worker_tally (l.ref w) gradSize v).1
  refine ⟨facts,worker,laid,?_⟩
  have tallies (v : Nat) := (s.fabric.worker_tally (l.ref w) gradSize v).2
  refine inv.flow.renew inv.sound ⟨fun _ => rfl,rfl,tallies⟩
    rfl (fun m active => laid.wired _ (inv.placed m active)) rfl fun r => ?_
  change (Function.update s.fabric.objs.tensor (l.ref w) _ r).numPktsExpected = _
  rcases eq_or_ne r (l.ref w) with rfl | other
  · rw [Function.update_self,facts.2.1,inv.sized l facts.1]
    exact (d.advanceTensor_eq (inv.below l) (fun all => inv.whole all l) (inv.sizes _)
      facts.2.2.2.2).2.2
  · rw [Function.update_of_ne other]

/-- Each switch that the worker cleans is cleaned for the first time in this round. -/
theorem cleaned_finish {x : Node} (station : (d.tree m.1).IsStation x) :
    (s.fabric.finish d.cfg (l.ref w) gradSize 0).cleaned x m = s.fabric.cleaned x m +
        (if m.ref ((d.tree m.1).cleanerOf x) = l.ref w then 1 else 0) ∧
      (m.ref ((d.tree m.1).cleanerOf x) = l.ref w → s.fabric.cleaned x m = 0) := by
  obtain ⟨⟨active,_⟩,worker,laid,_⟩ := inv.tally_flow released
  have wired := laid.wired _ (inv.placed l active)
  refine ⟨?_,fun own => inv.uncleaned m x station fun _ => by rw [own,released]; rfl⟩
  rcases eq_or_ne m l with rfl | other
  · refine (Fabric.cleaned_cleanUp d.cfg _ wired worker 0 station).trans
      (congrArg (s.fabric.cleaned x m + ·) (if_congr ?_ rfl rfl))
    exact ⟨fun own => congrArg m.ref own.symm,fun own => (Layer.ref_inj own).2.symm⟩
  · rw [if_neg fun same => other (Layer.ref_inj same).1]
    exact Fabric.cleaned_cleanUp_other d.cfg _ wired worker 0 other x

/-- The entries that are left are those of before, without the layer's where the worker cleans. -/
theorem owned_finish (x : Node) (tkey : Nat) (switch : ∀ w, x ≠ .worker w)
    (holds : ((s.fabric.finish d.cfg (l.ref w) gradSize 0).net.switch x).holds tkey) :
    ∃ m ∈ s.opened, m.cut d.cfg = tkey ∧ (d.tree m.1).IsStation x ∧
      (s.fabric.finish d.cfg (l.ref w) gradSize 0).cleaned x m = 0 ∧
      ∃ v ∈ (d.tree m.1).workers, 0 < s.fabric.begun (m.ref v) := by
  obtain ⟨⟨active,_⟩,worker,laid,_⟩ := inv.tally_flow released
  obtain ⟨before,apart⟩ := Fabric.holds_cleanUp d.cfg _ (laid.wired _ (inv.placed l active)) worker 0
    switch holds
  obtain ⟨m,also,cut,station,uncleaned,begun⟩ := inv.owned x tkey switch before
  refine ⟨m,also,cut,station,?_,begun⟩
  rw [(inv.cleaned_finish released station).1,uncleaned,if_neg]
  intro own
  obtain ⟨rfl,first⟩ := Layer.ref_inj own
  exact apart ⟨(Tree.cleans_iff station).mpr first.symm,cut.symm⟩

theorem finishOne : Inv d size base lad
    { s with
      fabric := s.fabric.finish d.cfg (l.ref w) gradSize 0
      stage := Function.update s.stage (l.ref w) .idle } := by
  have cleans (m : Layer) (x : Node) (station : (d.tree m.1).IsStation x) :=
    inv.cleaned_finish released (m := m) station
  have owned := inv.owned_finish released
  obtain ⟨⟨active,rfl,begun,done,reduced⟩,worker,laid,flow⟩ := inv.tally_flow released
  obtain ⟨objs,_,begins,ends,shadowed,workers⟩ :=
    (s.fabric.tally (l.ref w) (size l)).cleanUp_fields d.cfg (l.ref w) 0
  obtain ⟨tors,core⟩ := (s.fabric.tally (l.ref w) (size l)).config_cleanUp d.cfg (l.ref w) 0
  change (s.fabric.finish d.cfg (l.ref w) (size l) 0).objs = _ at objs
  change (s.fabric.finish d.cfg (l.ref w) (size l) 0).begun = s.fabric.begun at begins
  change (s.fabric.finish d.cfg (l.ref w) (size l) 0).done = s.fabric.done at ends
  change (s.fabric.finish d.cfg (l.ref w) (size l) 0).net.worker = _ at workers
  have advanced := d.advanceTensor_eq (inv.below l) (fun all => inv.whole all l) (inv.sizes _) reduced
  rw [← inv.sized l active] at advanced
  have tensor (r : TensorRef) : (s.fabric.finish d.cfg (l.ref w) (size l) 0).objs.tensor r =
      Function.update s.fabric.objs.tensor (l.ref w)
        (Worker.advanceTensor (s.fabric.objs.tensor (l.ref w)) (size l)) r := by
    rw [objs]; rfl
  refine
    { inv with
      laid := laid.of_config tors core fun v => by rw [workers]
      allocated := ?_
      sizes := ?_
      sharing := ?_
      strangers := ?_
      standing := ?_
      cleaned := ?_
      uncleaned := ?_
      owned := by rw [begins]; exact owned
      received := ?_
      flow := flow.cleanUp inv.sound active worker (fun _ x own => ?_) 0
      noShadow := shadowed.trans inv.noShadow }
  · intro j
    rw [objs]
    exact inv.allocated j
  · intro r
    rw [tensor]
    rcases eq_or_ne r (l.ref w) with rfl | other
    · rw [Function.update_self]; exact advanced.1
    · rw [Function.update_of_ne other]; exact inv.sizes r
  · intro r some
    dsimp only at some
    rcases eq_or_ne r (l.ref w) with rfl | other
    · exact inv.several l active
    · rw [tensor,Function.update_of_ne other,Function.update_of_ne other] at some
      exact inv.sharing r some
  · intro r outside
    dsimp only
    rcases eq_or_ne r (l.ref w) with rfl | other
    · exact Function.update_self ..
    · rw [Function.update_of_ne other]; exact inv.strangers r outside
  · intro m v member
    have before := inv.standing m v member
    dsimp only
    rw [tensor,begins,ends]
    rcases eq_or_ne (m.ref v) (l.ref w) with same | other
    · obtain ⟨rfl,rfl⟩ := Layer.ref_inj same
      rw [Function.update_self,Function.update_self,begun,done,advanced.2.1]
      exact .ended active rfl
    · rw [Function.update_of_ne other,Function.update_of_ne other]
      exact before
  · intro m x station also
    dsimp only
    rw [(cleans m x station).1]
    rcases eq_or_ne (m.ref ((d.tree m.1).cleanerOf x)) (l.ref w) with own | other
    · rw [if_pos own,(cleans m x station).2 own]
      exact fun _ => rfl
    · rw [if_neg other,Function.update_of_ne other]
      exact inv.cleaned m x station also
  · intro m x station
    dsimp only
    rw [(cleans m x station).1]
    rcases eq_or_ne (m.ref ((d.tree m.1).cleanerOf x)) (l.ref w) with own | other
    · rw [own,Function.update_self]
      intro calls
      cases calls ((Layer.ref_inj own).1 ▸ active)
    · rw [if_neg other,Function.update_of_ne other]
      exact inv.uncleaned m x station
  · intro v tkey some
    dsimp only at some
    rw [workers] at some
    refine inv.received v tkey fun none => some ?_
    rw [← none]
    exact congrArg (fun packets => packets.get tkey) (s.fabric.worker_tally (l.ref w) (size l) v).2
  · have first := (cleans l x own.station).2
      (congrArg l.ref ((Tree.cleans_iff own.station).mp own).symm)
    exact (Nat.succ_le_succ first.le).trans done.ge

end finish

section retire
variable (inv : Inv d size base lad s) (active : l ∈ s.opened)
  (resting : ∀ w ∈ (d.tree l.1).workers, (s.stage (l.ref w)).rests = true)
include inv active resting

/-- When the calls of a round have ended, its switches have been cleaned up and its packets have
arrived. -/
theorem spent : (∀ x, (d.tree l.1).IsStation x → s.fabric.cleaned x l = 1) ∧
    (∀ fl ∈ s.fabric.inflight, fl.layer ≠ l) ∧
    ∀ w ∈ (d.tree l.1).workers, (s.fabric.net.worker w).received (l.cut d.cfg) = ∅ := by
  have ended (w : Nat) (worker : w ∈ (d.tree l.1).workers) :=
    (inv.standing l w worker).of_rests (resting w worker) active
  refine ⟨fun x station => ?_,?_,fun w worker => ?_⟩
  · exact inv.cleaned l x station active (resting _ (Tree.cleanerOf_mem station))
  · exact inv.flow.landed fun w worker => ⟨(ended w worker).1,(ended w worker).2.1⟩
  · have sender := inv.flow.senders l active w worker
    rw [(ended w worker).1,(ended w worker).2.1] at sender
    exact sender.received.trans
      (Traffic.arrived_idle inv.sound fun s slot => (sender.idle slot).2)

theorem parted : Flow (d.traffic size (s.opened.erase l)) True lad (s.fabric.forget l) := by
  have rest (m : Layer) : m ∈ s.opened.erase l ↔ m ≠ l ∧ m ∈ s.opened := inv.distinct.mem_erase_iff
  have sub (m : Layer) (also : m ∈ s.opened.erase l) : m ∈ s.opened := List.mem_of_mem_erase also
  have sound : (d.traffic size (s.opened.erase l)).Sound :=
    d.sound (fun m also => inv.several m (sub m also)) inv.below
      (fun m also => inv.sized m (sub m also)) (fun m also => inv.noWrap m (sub m also))
      fun m also n other => inv.apart m (sub m also) n (sub n other)
  have filtered (m : Layer) (other : m ≠ l) (log : List Flight) :
      (log.filter fun fl => fl.layer ≠ l).filter (fun fl => fl.layer = m) =
        log.filter fun fl => fl.layer = m := by
    rw [List.filter_filter]
    apply List.filter_congr
    intro fl _
    rcases eq_or_ne fl.layer m with rfl | elsewhere
    · simp [other]
    · simp [elsewhere]
  have kept (m : Layer) (also : m ∈ s.opened.erase l) : Flow.Kept (d.traffic size s.opened)
      (d.traffic size (s.opened.erase l)) lad lad s.fabric (s.fabric.forget l) m := by
    have other := ((rest m).mp also).1
    exact ⟨sub m also,rfl,rfl,fun _ => if_neg other,fun _ => if_neg other,
      fun _ => Function.update_of_ne other ..,fun _ => rfl,filtered m other _,filtered m other _⟩
  have past (log : List Flight) (fl : Flight) (member : fl ∈ log.filter fun fl => fl.layer ≠ l) :
      fl ∈ log ∧ fl.layer ≠ l := by
    obtain ⟨old,other⟩ := List.mem_filter.mp member
    exact ⟨old,of_decide_eq_true other⟩
  refine inv.flow.shift sound
    { cfg := rfl, tree := rfl, coreId := rfl, core := rfl, inflight := rfl,
      records := ⟨fun _ => rfl,rfl,fun _ => rfl⟩,
      wired := fun m also => inv.laid.wired _ (inv.placed m (sub m also)),
      allocated := fun m _ => inv.allocated m.1, flying := ?_,
      layers := fun m also => Or.inl (kept m also), sent := ?_, got := ?_ }
  · intro fl member
    have also := (rest fl.layer).mpr
      ⟨(inv.spent active resting).2.1 fl member,(inv.flow.links.proper fl member).1⟩
    exact ⟨also,kept _ also⟩
  · intro fl member
    obtain ⟨old,other⟩ := past _ fl member
    exact ⟨old,(rest _).mpr ⟨other,(inv.flow.sentProper fl old).1.1⟩⟩
  · intro fl member
    obtain ⟨old,other⟩ := past _ fl member
    exact ⟨old,(rest _).mpr ⟨other,(inv.flow.gotProper fl old).1.1⟩⟩

theorem retire : Inv d size (Function.update base l (d.following l (base l))) lad
    { s with fabric := s.fabric.forget l, opened := s.opened.erase l } := by
  have rest (m : Layer) : m ∈ s.opened.erase l ↔ m ≠ l ∧ m ∈ s.opened := inv.distinct.mem_erase_iff
  have sub (m : Layer) (also : m ∈ s.opened.erase l) : m ∈ s.opened := List.mem_of_mem_erase also
  obtain ⟨cleaned,_,received⟩ := inv.spent active resting
  refine
    { inv with
      placed := fun m also => inv.placed m (sub m also)
      several := fun m also => inv.several m (sub m also)
      distinct := inv.distinct.erase l
      apart := fun m also n other => inv.apart m (sub m also) n (sub n other)
      noWrap := fun m also => inv.noWrap m (sub m also)
      sized := ?_, below := ?_, whole := ?_, standing := ?_, cleaned := ?_, uncleaned := ?_
      owned := ?_, received := ?_
      flow := inv.parted active resting }
  · intro m also
    rw [Function.update_of_ne ((rest m).mp also).1]
    exact inv.sized m (sub m also)
  · intro m
    rcases eq_or_ne m l with rfl | other
    · rw [Function.update_self]; exact d.following_lt (inv.below m)
    · rw [Function.update_of_ne other]; exact inv.below m
  · intro all m
    rcases eq_or_ne m l with rfl | other
    · rw [Function.update_self]; exact d.following_whole all
    · rw [Function.update_of_ne other]; exact inv.whole all m
  · intro m w worker
    have before := inv.standing m w worker
    rcases eq_or_ne m l with rfl | other
    · obtain ⟨_,_,reduced⟩ := before.of_rests (resting w worker) active
      have begun : (s.fabric.forget m).begun (m.ref w) = 0 := if_pos rfl
      have done : (s.fabric.forget m).done (m.ref w) = 0 := if_pos rfl
      dsimp only
      rw [begun,done,show (s.fabric.forget m).objs = s.fabric.objs from rfl,reduced,
        Function.update_self]
      exact .waiting (fun also => ((rest m).mp also).1 rfl) (resting w worker)
    · have begun : (s.fabric.forget l).begun (m.ref w) = s.fabric.begun (m.ref w) := if_neg other
      have done : (s.fabric.forget l).done (m.ref w) = s.fabric.done (m.ref w) := if_neg other
      dsimp only
      rw [begun,done,Function.update_of_ne other]
      rwa [show m ∈ s.opened ↔ m ∈ s.opened.erase l by simp [rest,other]] at before
  · intro m x station also
    rw [show (s.fabric.forget l).cleaned x m = s.fabric.cleaned x m from
      Function.update_of_ne ((rest m).mp also).1 ..]
    exact inv.cleaned m x station (sub m also)
  · intro m x station calls
    rcases eq_or_ne m l with rfl | other
    · exact Function.update_self ..
    · refine (Function.update_of_ne other ..).trans (inv.uncleaned m x station fun also => ?_)
      exact calls ((rest m).mpr ⟨other,also⟩)
  · intro x tkey switch holds
    obtain ⟨m,also,cut,station,uncleaned,w,worker,first⟩ := inv.owned x tkey switch holds
    have other : m ≠ l := by
      rintro rfl
      rw [cleaned x station] at uncleaned
      cases uncleaned
    refine ⟨m,(rest m).mpr ⟨other,also⟩,cut,station,(Function.update_of_ne other ..).trans uncleaned,
      w,worker,?_⟩
    exact Nat.lt_of_lt_of_eq first (if_neg other).symm
  · intro w tkey some
    obtain ⟨m,also,cut,worker⟩ := inv.received w tkey some
    refine ⟨m,(rest m).mpr ⟨?_,also⟩,cut,worker⟩
    rintro rfl
    exact some (cut ▸ received w worker)

end retire

end Inv

namespace Busy
variable (busy : Busy d s)
include busy

theorem of_rests {stage : TensorRef → CallStage} (rests : ∀ r, (stage r).rests = (s.stage r).rests)
    (fabric : Fabric) (jobs : List Nat) :
    Busy d { s with fabric := fabric, jobs := jobs, stage := stage } := by
  intro l active
  simp only [rests]
  exact busy l active

theorem update {now : CallStage} (rests : now.rests = (s.stage r).rests) (fabric : Fabric) :
    Busy d { s with fabric := fabric, stage := Function.update s.stage r now } := by
  refine busy.of_rests (fun q => ?_) fabric s.jobs
  rcases eq_or_ne q r with rfl | other
  · rw [Function.update_self,rests]
  · rw [Function.update_of_ne other]

theorem deliver (fl : Flight) :
    Busy d { s with fabric := s.fabric.deliver d.cfg fl, stage := s.woken d fl } := by
  refine busy.of_rests (fun q => ?_) _ s.jobs
  rcases dest : fl.hop.dest with t | _ | w
  case worker =>
    cases sending : s.stage (fl.layer.ref w) with
    | sending gradSize =>
      cases releases : s.fabric.releases d.cfg fl with
      | true =>
        simp only [woken,dest,sending,releases]
        rcases eq_or_ne q (fl.layer.ref w) with rfl | other
        · rw [Function.update_self,sending]; rfl
        · rw [Function.update_of_ne other]
      | false => simp only [woken,dest,sending,releases]
    | _ => simp only [woken,dest,sending]
  all_goals simp only [woken,dest]

theorem start : Busy d
    { s with
      stage := fun r => if r.layer = l ∧ r.machine ∈ (d.tree l.1).workers then .called
        else s.stage r
      opened := s.opened ++ [l] } := by
  intro m active
  rcases eq_or_ne m l with rfl | other
  · obtain ⟨w,worker⟩ := d.exists_worker m.1
    exact ⟨w,worker,by dsimp only; rw [if_pos ⟨rfl,worker⟩]; rfl⟩
  · rcases List.mem_append.mp active with old | new
    · obtain ⟨w,worker,calls⟩ := busy m old
      exact ⟨w,worker,by dsimp only; rw [if_neg fun both => other both.1]; exact calls⟩
    · exact absurd (List.mem_singleton.mp new) other

theorem elsewhere (also : m ∈ s.opened) (other : m ≠ l) (now : CallStage) :
    ∃ v ∈ (d.tree m.1).workers, (Function.update s.stage (l.ref w) now (m.ref v)).rests = false := by
  obtain ⟨v,member,calls⟩ := busy m also
  refine ⟨v,member,?_⟩
  rw [Function.update_of_ne fun same => other (Layer.ref_inj same).1]
  exact calls

end Busy

theorem Inv.finish (inv : Inv d size base lad s) (busy : Busy d s)
    (released : s.stage (l.ref w) = .released gradSize) :
    (∃ base', Inv d size base' lad (s.finish d (l.ref w) gradSize)) ∧
      Busy d (s.finish d (l.ref w) gradSize) := by
  have active := (inv.tally_flow released).1.1
  have one := inv.finishOne released
  unfold Rounds.finish
  dsimp only
  split
  · rename_i resting
    refine ⟨⟨_,one.retire active resting⟩,fun m also => ?_⟩
    obtain ⟨other,old⟩ := inv.distinct.mem_erase_iff.mp also
    exact busy.elsewhere old other _
  · rename_i going
    refine ⟨⟨base,one⟩,fun m also => ?_⟩
    rcases eq_or_ne m l with rfl | other
    · push Not at going
      obtain ⟨v,member,calls⟩ := going
      exact ⟨v,member,Bool.eq_false_iff.mpr calls⟩
    · exact busy.elsewhere also other _

theorem step_inv (label : Label) (s s' : Rounds)
    (inv : (∃ size base lad, Inv d size base lad s) ∧ Busy d s) (may : apart d label s)
    (taken : step d label s = some s') :
    (∃ size base lad, Inv d size base lad s') ∧ Busy d s' := by
  obtain ⟨⟨size,base,lad,inv⟩,busy⟩ := inv
  cases label with
  | place j =>
    simp only [step] at taken
    split at taken <;> cases taken
    exact ⟨⟨_,_,_,inv.place ‹_›⟩,busy.of_rests (fun _ => rfl) _ _⟩
  | enqueue r =>
    simp only [step] at taken
    split at taken <;> cases taken
    rename_i both
    exact ⟨⟨_,_,_,inv.enqueue both.1 both.2.1 both.2.2.1⟩,
      busy.update (by rw [both.2.2.1]; rfl) _⟩
  | start l =>
    simp only [step] at taken
    split at taken <;> cases taken
    rename_i both
    exact ⟨⟨_,_,_,Inv.start both.2 inv busy both.1 may⟩,busy.start⟩
  | launch r =>
    simp only [step] at taken
    split at taken <;> cases taken
    rename_i called
    obtain ⟨lad',next⟩ := inv.launch (l := r.layer) (w := r.machine) called
    exact ⟨⟨_,_,_,next⟩,busy.update (by rw [called]; rfl) _⟩
  | deliver fl =>
    simp only [step] at taken
    split at taken <;> cases taken
    obtain ⟨lad',next⟩ := inv.deliver ‹_›
    exact ⟨⟨_,_,_,next⟩,busy.deliver fl⟩
  | finish r =>
    simp only [step] at taken
    split at taken <;> cases taken
    rename_i released
    obtain ⟨⟨base',next⟩,goes⟩ := inv.finish (l := r.layer) (w := r.machine) busy released
    exact ⟨⟨_,_,_,next⟩,goes⟩

/-- Every round starts from switches without entries for its tensor and with none of its packets
under way, and the `assert(false)` branch is never reached. -/
theorem rounds_start_clean (d : Deployment) (s : Rounds)
    (run : Runs.Run (step d) (apart d) (initial d) s) : StartsClean d s := by
  have holds := run.invariant step_inv
    ⟨⟨_,_,_,initial_inv d⟩,fun _ active => by cases active⟩
  obtain ⟨⟨size,base,lad,inv⟩,_⟩ := holds
  exact inv.startsClean

open SingleAllreduce (twoTors oneSlot threePorts)
open Isolation (libstdcxxKeys)

/-- One tensor of three elements, reduced in chunks of two. -/
def chunked : Deployment where
  topo := threePorts
  cfg := oneSlot
  chunkSize := 2
  tree _ := twoTors
  modelSize _ := 1
  size _ := 3
  slots := by decide
  updates := by decide
  torOf _ := rfl
  existing _ := by decide
  staffed _ := by decide
  positive _ := by decide
  sizeFits _ := by decide

/-- The round of the first chunk. The packets of the core and all replies carry the tensor of
worker 1. -/
def firstChunk : List Label :=
  [.enqueue ⟨0,0,0⟩,.enqueue ⟨1,0,0⟩,.enqueue ⟨2,0,0⟩,.start (0,0),.launch ⟨0,0,0⟩,
    .launch ⟨1,0,0⟩,.launch ⟨2,0,0⟩] ++
  [(Link.up 2,2),(.rise 1,2),(.up 0,0),(.up 1,1),(.rise 0,1),(.fall 0,1),(.fall 1,1),(.down 0,1),
    (.down 1,1),(.down 2,1)].map (fun (k,owner) =>
      .deliver ((chunked.traffic (fun _ => 2) [(0,0)]).flight ⟨(0,0),0,k⟩ 0 owner)) ++
  [.finish ⟨0,0,0⟩,.finish ⟨1,0,0⟩,.finish ⟨2,0,0⟩]

/-- The second chunk starts when the first has left the switches clean. -/
theorem rounds_start_clean_second_chunk :
    ∃ s, Runs.Run (step chunked) (apart chunked) (initial chunked) s ∧
      (∀ w ∈ (chunked.tree 0).workers, s.stage ⟨w,0,0⟩ = .called ∧
        (s.fabric.objs.tensor ⟨w,0,0⟩).allreducedSize = 2) ∧
      StartsClean chunked s := by
  have ends : (Runs.exec (step chunked) (apart chunked)
      ([.place 0] ++ firstChunk ++ [.start (0,0)]) (initial chunked)).map
        (fun s => decide (∀ w ∈ (chunked.tree 0).workers, s.stage ⟨w,0,0⟩ = .called ∧
          (s.fabric.objs.tensor ⟨w,0,0⟩).allreducedSize = 2)) = some true := by
    decide +kernel
  obtain ⟨s,run,view⟩ := Runs.exists_run_of_exec ends
  exact ⟨s,run,of_decide_eq_true view,rounds_start_clean chunked s run⟩

def oneTor : Tree where
  workers := [0,1]
  tors := [0]
  torOf w := w / 2
  workersDistinct := twoTors.torsDistinct
  torsDistinct := by decide
  involved t := by
    constructor
    · intro member
      exact ⟨0,by decide,(List.mem_singleton.mp member).symm⟩
    · rintro ⟨w,member,rfl⟩
      exact (by decide : ∀ w ∈ [0,1], w / 2 ∈ [0]) w member

/-- Two jobs on the same workers. -/
def shared : Deployment where
  topo := threePorts
  cfg := libstdcxxKeys
  chunkSize := 0
  tree _ := oneTor
  modelSize _ := 20
  size _ := 1000
  slots := by decide
  updates := by decide
  torOf _ := rfl
  existing _ := by decide
  staffed _ := by decide
  positive _ := by decide
  sizeFits _ := by decide

def begin (l : Layer) : List Label :=
  [.enqueue (l.ref 0),.enqueue (l.ref 1),.start l]

def firstPacket (l : Layer) : List Label :=
  [.launch (l.ref 0),
    .deliver ((shared.traffic (fun _ => 1000) [l]).flight ⟨l,0,.up 0⟩ 0 0)]

/-- The keys of the two tensors agree in the low 32 bits: the second round starts on a ToR with an
entry of the first, and its first packet then runs into `assert(false)`. -/
theorem colliding_round_starts_dirty :
    (∃ s, Runs.Run (step shared) Runs.anyStep (initial shared) s ∧
      (∀ w ∈ (shared.tree 2838).workers, s.stage ⟨w,2838,17⟩ = .called) ∧
      ¬Clean shared s (2838,17)) ∧
    ∃ s, Runs.Run (step shared) Runs.anyStep (initial shared) s ∧ s.fabric.shadowed ≠ [] := by
  constructor
  · have ends : (Runs.exec (step shared) Runs.anyStep
        ([.place 1895,.place 2838] ++ begin (1895,8) ++ firstPacket (1895,8) ++ begin (2838,17))
        (initial shared)).map (fun s =>
          (decide (∀ w ∈ (shared.tree 2838).workers, s.stage ⟨w,2838,17⟩ = .called),
            ((s.fabric.net.tor 0).countForTensorKey (Layer.cut shared.cfg (2838,17))).isSome)) =
        some (true,true) := by decide +kernel
    obtain ⟨s,run,view⟩ := Runs.exists_run_of_exec ends
    obtain ⟨called,counted⟩ := Prod.mk.inj view
    refine ⟨s,run,of_decide_eq_true called,fun clean => ?_⟩
    have none := clean.counts (.tor 0) (fun _ => Node.noConfusion)
    rw [show s.fabric.net.switch (.tor 0) = s.fabric.net.tor 0 from rfl] at none
    rw [none] at counted
    cases counted
  · have ends : (Runs.exec (step shared) Runs.anyStep
        ([.place 1895,.place 2838] ++ begin (1895,8) ++ firstPacket (1895,8) ++ begin (2838,17) ++
          firstPacket (2838,17)) (initial shared)).map (fun s => s.fabric.shadowed.length) =
        some 1 := by decide +kernel
    obtain ⟨s,run,shadowed⟩ := Runs.exists_run_of_exec ends
    refine ⟨s,run,fun none => ?_⟩
    rw [none] at shadowed
    cases shadowed

end Rounds
end CloudSim
