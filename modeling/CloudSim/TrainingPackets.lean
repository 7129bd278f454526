import CloudSim.Entries
import CloudSim.TrainingFlow

/-! The steps that send and deliver packets, clean the switches and place jobs keep the calls of
`allreduce` coupled to the packets. -/
namespace CloudSim

theorem Fabric.done_deliver_cases (cfg : Config) (f : Fabric) (fl : Flight) (q : TensorRef) :
    (f.deliver cfg fl).done q = f.done q ∨ ∃ w, fl.hop.dest = .worker w ∧
      q = fl.layer.ref w ∧ (f.deliver cfg fl).done q = f.done q + 1 := by
  have done := f.done_deliver cfg fl
  rcases dest : fl.hop.dest with t | _ | w
  all_goals simp only [dest] at done
  case worker =>
    by_cases ends : f.releases cfg fl = true ∧ q = fl.layer.ref w
    · obtain ⟨releases,rfl⟩ := ends
      rw [if_pos releases] at done
      exact Or.inr ⟨w,rfl,rfl,by rw [done,Function.update_self]⟩
    · refine Or.inl ?_
      rw [done]
      split
      · rename_i releases
        exact Function.update_of_ne (fun same => ends ⟨releases,same⟩) ..
      · rfl
  all_goals exact Or.inl (by rw [done])

namespace Training
variable {d : Plan} {exact : Prop} {lad : Ladders} {s s' : Training} {l : Layer} {w j k : Nat}

namespace Coupled

/-- A call that was granted a lock is the last one on the tensor of a layer in use. -/
theorem caller (coupled : Coupled d exact lad s) (member : .call (l.ref w) k ∈ s.granted) :
    s.called (l.ref w) = k + 1 ∧ d.Real (l.ref w) ∧ s.lastCall (l.ref w) = s.stage (l.ref w) k ∧
      l ∈ (d.layers s.jobs).active := by
  obtain ⟨called,real⟩ := coupled.orderly.leased.calls _ k member
  refine ⟨called,real,by simp only [lastCall,called],?_⟩
  exact coupled.paced.several (l.ref w) (by rw [called]; exact Nat.succ_ne_zero k)

section launch
variable (coupled : Coupled d exact lad s) (sound : (d.layers s.jobs).Sound)
  (direct : d.scheduled = false) (keys : d.DistinctKeys)
  (member : .call (l.ref w) k ∈ s.granted) (first : s.stage (l.ref w) k = .first)
include coupled sound direct keys member first

theorem launch : ∃ lad', Coupled d exact lad'
    ({ s with granted := s.granted.erase (.call (l.ref w) k) }.launch d (l.ref w) k) := by
  obtain ⟨called,real,last,active⟩ := coupled.caller member
  have pace := coupled.paced.pace _ real
  rw [last,first,called] at pace
  obtain ⟨count,idle⟩ := pace.of_first
  have orderly := coupled.orderly.launch keys member first fun some => absurd rfl some
  rw [Function.update_eq_self] at orderly
  have whole : Worker.allreduceSize (if d.scheduled then d.chunkSize else 0)
      (s.fabric.objs.tensor (l.ref w)) = d.size l := by
    rw [direct]
    exact coupled.stocked.sizes (l.ref w)
  set s₁ := { s with granted := s.granted.erase (.call (l.ref w) k) }.launch d (l.ref w) k
  have fabric : s₁.fabric = s.fabric.launch d.cfg (l.ref w) (d.size l) :=
    congrArg (s.fabric.launch d.cfg (l.ref w)) whole
  have stage : s₁.stage = (s.setStage (l.ref w) k (.second (d.size l))).stage :=
    congrArg (fun size => (s.setStage (l.ref w) k (.second size)).stage) whole
  have tensor (r : TensorRef) : (s₁.fabric.objs.tensor r).size = (s.fabric.objs.tensor r).size ∧
      (s₁.fabric.objs.tensor r).allreducedSize = (s.fabric.objs.tensor r).allreducedSize := by
    rw [fabric]
    change (Function.update s.fabric.objs.tensor (l.ref w) _ r).size = _ ∧
      (Function.update s.fabric.objs.tensor (l.ref w) _ r).allreducedSize = _
    rcases eq_or_ne r (l.ref w) with rfl | other
    · rw [Function.update_self]; exact ⟨rfl,rfl⟩
    · rw [Function.update_of_ne other]; exact ⟨rfl,rfl⟩
  have stocked : Stocked d s₁.jobs s₁.fabric :=
    { laid := by rw [fabric]; exact coupled.stocked.laid
      allocated := fun j => by rw [fabric]; exact coupled.stocked.allocated j
      sizes := fun r => (tensor r).1.trans (coupled.stocked.sizes r)
      whole := fun r => (tensor r).2.trans (coupled.stocked.whole r)
      owned := by rw [fabric]; exact coupled.stocked.owned
      received := by rw [fabric]; exact coupled.stocked.received }
  have flow : Flow (d.layers s.jobs) exact (Flow.launched (d.layers s.jobs) lad l w) s₁.fabric := by
    rw [fabric]
    exact coupled.flow.launch sound active real.1 idle
  refine ⟨_,stocked,coupled.paced.move called rfl rfl stage ?_ (fun q other => ?_)
    (fun m x _ => ?_) (by rw [last,first]; exact nofun),?_,coupled.placed,flow⟩
  · have begun : s₁.fabric.begun (l.ref w) = s.fabric.begun (l.ref w) + 1 := by
      rw [fabric]; exact Function.update_self ..
    have done : s₁.fabric.done (l.ref w) = s.fabric.done (l.ref w) := by rw [fabric]; rfl
    rw [begun,done,← idle,count]
    exact .sent
  · rw [fabric]
    exact ⟨Function.update_of_ne other ..,rfl⟩
  · rw [fabric,if_neg fun both => Suspension.noConfusion both.2]
    rfl
  · rw [fabric]
    exact orderly.mono fun _ _ _ _ _ _ woke => woke

end launch

section finish
variable (coupled : Coupled d exact lad s) (sound : (d.layers s.jobs).Sound)
  (keys : d.DistinctKeys) (member : .call (l.ref w) k ∈ s.granted)
  (second : s.stage (l.ref w) k = .second g)
include coupled member second

theorem received : g = d.size l ∧ s.fabric.begun (l.ref w) = k + 1 ∧
    s.fabric.done (l.ref w) = k + 1 := by
  obtain ⟨called,real,last,_⟩ := coupled.caller member
  have done := (coupled.orderly.leased.reasons _ k g member second).1
  have pace := coupled.paced.pace _ real
  rw [last,second,called] at pace
  exact ⟨pace.of_second.1,pace.of_second.2,done⟩

include sound

/-- The end of a call. The clean-up leaves the entries of other layers and switches. -/
theorem finish_fabric : let f := s.fabric.finish d.cfg (l.ref w) g k
    Stocked d s.jobs f ∧ f.done = s.fabric.done ∧ f.begun = s.fabric.begun ∧
      (∀ m x, (d.tree m.1).IsStation x → f.cleaned x m = s.fabric.cleaned x m +
        if m.ref ((d.tree m.1).cleanerOf x) = l.ref w then 1 else 0) ∧
      Flow (d.layers s.jobs) exact lad f := by
  obtain ⟨called,real,last,active⟩ := coupled.caller member
  obtain ⟨rfl,begun,done⟩ := coupled.received member second
  have stocked := coupled.stocked
  set tallied := s.fabric.tally (l.ref w) (d.size l)
  have tallies (v : Nat) := s.fabric.worker_tally (l.ref w) (d.size l) v
  have laid : Laid d.toDeployment s.jobs tallied.net :=
    stocked.laid.of_config (fun _ => rfl) rfl fun v => (tallies v).1
  have wired := laid.wired l.1 active.1
  have advanced (r : TensorRef) : (tallied.objs.tensor r).size = d.size r.layer ∧
      (tallied.objs.tensor r).allreducedSize = 0 ∧ (tallied.objs.tensor r).numPktsExpected =
        (s.fabric.objs.tensor r).numPktsExpected := by
    change (Function.update s.fabric.objs.tensor (l.ref w) _ r).size = _ ∧
      (Function.update s.fabric.objs.tensor (l.ref w) _ r).allreducedSize = _ ∧
      (Function.update s.fabric.objs.tensor (l.ref w) _ r).numPktsExpected = _
    rcases eq_or_ne r (l.ref w) with rfl | other
    · have all : (s.fabric.objs.tensor (l.ref w)).size ≤
          u64 ((s.fabric.objs.tensor (l.ref w)).allreducedSize + d.size l) := by
        rw [stocked.sizes,stocked.whole,Nat.zero_add,u64_of_lt (d.sizeFits l)]
        exact Nat.le_refl (d.size l)
      rw [Function.update_self,Worker.advanceTensor_whole all]
      exact ⟨stocked.sizes _,rfl,rfl⟩
    · rw [Function.update_of_ne other]
      exact ⟨stocked.sizes r,stocked.whole r,rfl⟩
  have flow : Flow (d.layers s.jobs) exact lad tallied :=
    coupled.flow.renew sound ⟨fun _ => rfl,rfl,fun v => (tallies v).2⟩ rfl
      (fun m also => laid.wired m.1 also.1) rfl fun r => (advanced r).2.2
  obtain ⟨objs,_,begins,dones,_,workers⟩ := tallied.cleanUp_fields d.cfg (l.ref w) k
  obtain ⟨tors,core⟩ := tallied.config_cleanUp d.cfg (l.ref w) k
  have counted (m : Layer) (x : Node) (station : (d.tree m.1).IsStation x) :
      (tallied.cleanUp d.cfg (l.ref w) k).cleaned x m = s.fabric.cleaned x m +
        if m.ref ((d.tree m.1).cleanerOf x) = l.ref w then 1 else 0 := by
    rcases eq_or_ne m l with rfl | other
    · refine (tallied.cleaned_cleanUp d.cfg wired real.1 k station).trans
        (congrArg (s.fabric.cleaned x m + ·) (if_congr ?_ rfl rfl))
      exact ⟨fun own => congrArg m.ref own.symm,fun own => (Layer.ref_inj own).2.symm⟩
    · rw [if_neg fun same => other (Layer.ref_inj same).1]
      exact tallied.cleaned_cleanUp_other d.cfg wired real.1 k other x
  intro f
  change Stocked d s.jobs (tallied.cleanUp d.cfg (l.ref w) k) ∧ _
  refine ⟨⟨laid.of_config tors core fun v => by rw [workers],fun j => ?_,fun r => ?_,fun r => ?_,
    fun x tkey switch holds => ?_,fun v tkey some => ?_⟩,dones,begins,counted,?_⟩
  · rw [objs]; exact stocked.allocated j
  · rw [objs]; exact (advanced r).1
  · rw [objs]; exact (advanced r).2.1
  · exact stocked.owned x tkey switch
      (tallied.holds_cleanUp d.cfg wired real.1 k switch holds).1
  · refine stocked.received v tkey fun none => some ?_
    rw [workers,Worker.received,(tallies v).2]
    exact none
  · refine flow.cleanUp sound active real.1 (fun _ x cleans => ?_) k
    have own : w = (d.tree l.1).cleanerOf x := (Tree.cleans_iff cleans.station).mp cleans
    have cleaned := coupled.paced.cleaned l x cleans.station
    have running : Suspension.second (d.size l) ≠ .ended := by
      intro ended
      cases ended
    rw [← own,last,second,if_neg running,called] at cleaned
    exact (cleaned.trans done.symm).le

include keys

theorem finish : Coupled d exact lad
    ({ s with granted := s.granted.erase (.call (l.ref w) k) }.finish d (l.ref w) k g) := by
  obtain ⟨called,real,last,active⟩ := coupled.caller member
  obtain ⟨rfl,begun,done⟩ := coupled.received member second
  obtain ⟨stocked,dones,begins,cleaned,flow⟩ := coupled.finish_fabric sound member second
  obtain ⟨fabric,jobs,position,calls,stage⟩ :=
    finish_fields d { s with granted := s.granted.erase (.call (l.ref w) k) } (l.ref w) k (d.size l)
  have orderly := coupled.orderly.finish keys member second
  set s₁ :=
    { s with granted := s.granted.erase (.call (l.ref w) k) }.finish d (l.ref w) k (d.size l)
  have fabric : s₁.fabric = s.fabric.finish d.cfg (l.ref w) (d.size l) k := fabric
  refine ⟨?_,coupled.paced.move called jobs calls stage ?_ (fun q _ => ?_) (fun m x station => ?_)
    (by rw [last,second]; exact nofun),?_,?_,?_⟩
  · rw [fabric,jobs]; exact stocked
  · rw [fabric,begins,dones,begun,done]
    exact .ended
  · rw [fabric,begins,dones]
    exact ⟨rfl,rfl⟩
  · rw [fabric,cleaned m x station]
    simp
  · rw [fabric]
    refine orderly.mono fun r i _ c _ _ woke => ?_
    rw [Training.woke,dones]
    exact woke
  · rw [position,jobs]; exact coupled.placed
  · rw [fabric,jobs]; exact flow

end finish

section deliver
variable (coupled : Coupled d exact lad s) (member : fl ∈ s.fabric.inflight)
include coupled member

/-- A result that completes an allreduce reaches the call that waits for it. -/
theorem awaited (dest : fl.hop.dest = .worker w) :
    d.Real (fl.layer.ref w) ∧
      s.called (fl.layer.ref w) = s.fabric.done (fl.layer.ref w) + 1 ∧
      s.lastCall (fl.layer.ref w) = .second (d.size fl.layer) ∧
      s.fabric.begun (fl.layer.ref w) = s.fabric.done (fl.layer.ref w) + 1 ∧
      fl.turn = s.fabric.done (fl.layer.ref w) := by
  have link : fl.link = .down w := Flight.link_down.mpr dest
  have place : fl.place = ⟨fl.layer,fl.hop.packet.slot,.down w⟩ := by rw [← link]; rfl
  obtain ⟨owner,landing,stamp⟩ := coupled.flow.landing member place
  have real : d.Real (fl.layer.ref w) := ⟨landing.worker,landing.active.2.1⟩
  have outstanding : s.fabric.done (fl.layer.ref w) < s.fabric.begun (fl.layer.ref w) := by
    rw [landing.running]
    exact Nat.lt_succ_self _
  obtain ⟨called,call,begun⟩ := (coupled.paced.pace _ real).of_outstanding outstanding
  refine ⟨real,called,call,begun,?_⟩
  rw [← (landing.pass coupled.flow).2.2]
  conv_lhs => rw [stamp]
  rfl

theorem stocked_deliver : Stocked d s.jobs (s.fabric.deliver d.cfg fl) := by
  have stocked := coupled.stocked
  have proper := coupled.flow.links.proper fl member
  obtain ⟨_,objs,_⟩ := s.fabric.deliver_fields d.cfg fl
  obtain ⟨tors,core,workers⟩ := s.fabric.config_deliver d.cfg fl
  refine ⟨stocked.laid.of_config tors core workers,?_,?_,?_,fun x tkey switch holds => ?_,
    fun v tkey some => ?_⟩
  · rw [objs]; exact stocked.allocated
  · rw [objs]; exact stocked.sizes
  · rw [objs]; exact stocked.whole
  · rcases s.fabric.holds_deliver d.cfg fl switch holds with ⟨_,rfl⟩ | before
    · exact ⟨fl.layer,proper.1,rfl⟩
    · exact stocked.owned x tkey switch before
  · rcases s.fabric.received_deliver d.cfg fl v tkey with ⟨_,rfl⟩ | same
    · exact ⟨fl.layer,proper.1,rfl⟩
    · rw [same] at some
      exact stocked.received v tkey some

theorem orderly_deliver (keys : d.DistinctKeys) :
    Orderly d (woke (s.fabric.deliver d.cfg fl)) (s.deliver d fl) fun _ => 0 := by
  have done := s.fabric.done_deliver d.cfg fl
  have before : Orderly d (woke (s.fabric.deliver d.cfg fl)) s fun _ => 0 := by
    refine coupled.orderly.mono fun r k g c granted second woken => ⟨?_,woken.2⟩
    rcases s.fabric.done_deliver_cases d.cfg fl r with same | ⟨w,dest,rfl,_⟩
    · exact same.trans woken.1
    · obtain ⟨_,called,_⟩ := coupled.awaited member dest
      have count := (coupled.orderly.leased.calls _ k granted).1
      have done := woken.1
      omega
  obtain ⟨extra,after,none⟩ := before.deliver keys fl
    fun w q k g dest releases real lock called _ => by
    obtain ⟨also,count,_,_,turn⟩ := coupled.awaited member dest
    obtain ⟨_,machine,key⟩ := Lock.mk.inj lock
    obtain rfl : fl.layer.ref w = q := keys.eq_of_key also real machine key
    have last : s.fabric.done (fl.layer.ref w) = k := by omega
    refine ⟨?_,fl,rfl,rfl,turn.trans last,dest⟩
    simp only [done,dest,releases,if_true,Function.update_self,last]
  rwa [none] at after
  intro w q dest releases real lock
  obtain ⟨also,count,call,_⟩ := coupled.awaited member dest
  obtain ⟨_,machine,key⟩ := Lock.mk.inj lock
  obtain rfl : fl.layer.ref w = q := keys.eq_of_key also real machine key
  have stage : s.stage (fl.layer.ref w) (s.fabric.done (fl.layer.ref w)) =
      .second (d.size fl.layer) := by
    simpa only [lastCall,count] using call
  refine ⟨_,_,count,stage,fun granted => ?_⟩
  have woken := (coupled.orderly.leased.reasons _ _ _ granted stage).1
  omega

theorem paced_deliver : Paced d (s.deliver d fl) := by
  obtain ⟨fabric,jobs,position,called,stage⟩ := s.deliver_fields d fl
  obtain ⟨begun,_,cleaned⟩ := s.fabric.deliver_fields d.cfg fl
  have last (q : TensorRef) : (s.deliver d fl).lastCall q = s.lastCall q := by
    simp only [lastCall,called,stage]
  refine ⟨fun q real => ?_,fun q => ?_,fun l x station => ?_⟩
  · rw [called,last,fabric,begun]
    have before := coupled.paced.pace q real
    rcases s.fabric.done_deliver_cases d.cfg fl q with same | ⟨w,dest,rfl,more⟩
    · rw [same]
      exact before
    · obtain ⟨_,count,call,begun,_⟩ := coupled.awaited member dest
      rw [more,count,call,begun]
      exact .received
  · rw [called,jobs]; exact coupled.paced.several q
  · rw [called,last,fabric,cleaned]; exact coupled.paced.cleaned l x station

theorem deliver (sound : (d.layers s.jobs).Sound) (keys : d.DistinctKeys)
    (timely : exact → fl.hop.packet.upward = true →
      fl.turn ≤ s.fabric.cleaned fl.hop.dest fl.layer) :
    (∃ lad', Coupled d exact lad' (s.deliver d fl)) ∧
      (exact → (s.deliver d fl).fabric.shadowed = s.fabric.shadowed) := by
  obtain ⟨fabric,jobs,position,_⟩ := s.deliver_fields d fl
  obtain ⟨⟨lad',flow⟩,kept⟩ := coupled.flow.deliver sound member timely
  refine ⟨⟨lad',?_,coupled.paced_deliver member,?_,?_,?_⟩,?_⟩
  · rw [fabric,jobs]; exact coupled.stocked_deliver member
  · rw [fabric]; exact coupled.orderly_deliver member keys
  · rw [position,jobs]; exact coupled.placed
  · rw [fabric,jobs]; exact flow
  · rw [fabric]; exact kept

end deliver

section place
variable (coupled : Coupled d exact lad s) (fresh : j ∉ s.jobs)
  (sound : (d.layers (s.jobs ++ [j])).Sound)
include coupled fresh

theorem uncalled {m : Layer} (new : m.1 = j) (v : Nat) :
    s.called (m.ref v) = 0 ∧ s.lastCall (m.ref v) = .ended := by
  have none : s.called (m.ref v) = 0 := by
    by_contra some
    exact fresh (new ▸ (coupled.paced.several _ some).1)
  exact ⟨none,by simp only [lastCall,none]⟩

include sound

theorem place : ∃ lad', Coupled d exact lad' (s.place d j) := by
  have stocked := coupled.stocked
  set net := d.topo.setSwitchNumUpdates j (d.tree j).workers (d.tree j).tors s.fabric.net
  have edits : HierarchicalTopology.Edits j s.fabric.net net :=
    d.topo.setSwitchNumUpdates_edits j (d.tree j).workers (d.tree j).tors s.fabric.net
  have laid : Laid d.toDeployment (s.jobs ++ [j]) net := stocked.laid.place fresh
  have more (m : Layer) (active : m ∈ d.Layers s.jobs) : m ∈ d.Layers (s.jobs ++ [j]) :=
    ⟨List.mem_append_left _ active.1,active.2⟩
  have holds (x : Node) (tkey : Nat) (switch : ∀ w, x ≠ .worker w)
      (holds : (net.switch x).holds tkey) : ∃ l ∈ d.Layers s.jobs, l.cut d.cfg = tkey :=
    stocked.owned x tkey switch ((Flow.holds_of_records edits.records x tkey).mp holds)
  have received (w tkey : Nat) (some : (net.worker w).received tkey ≠ ∅) :
      ∃ l ∈ d.Layers s.jobs, l.cut d.cfg = tkey := by
    rw [Flow.received_of_records edits.records w tkey] at some
    exact stocked.received w tkey some
  let lad' : Ladders := fun m => if m.1 = j then fun _ => Ladder.ground else lad m
  have kept (m : Layer) (active : m ∈ d.Layers s.jobs) : Flow.Kept (d.layers s.jobs)
      (d.layers (s.jobs ++ [j])) lad lad' s.fabric { s.fabric with net := net } m :=
    ⟨active,rfl,if_neg fun (same : m.1 = j) => fresh (same ▸ active.1),fun _ => rfl,fun _ => rfl,
      fun _ => rfl,fun _ => rfl,rfl,rfl⟩
  have sent (fl : Flight) (member : fl ∈ s.fabric.sent) : fl.layer ∈ d.Layers s.jobs :=
    (coupled.flow.sentProper fl member).1.1
  have got (fl : Flight) (member : fl ∈ s.fabric.got) : fl.layer ∈ d.Layers s.jobs :=
    (coupled.flow.gotProper fl member).1.1
  have flying (fl : Flight) (member : fl ∈ s.fabric.inflight) : fl.layer ∈ d.Layers s.jobs :=
    (coupled.flow.links.proper fl member).1
  have joins (m : Layer) (active : m ∈ d.Layers (s.jobs ++ [j])) (new : m.1 = j) :
      Flow.Joins (d.layers (s.jobs ++ [j])) lad' { s.fabric with net := net } m := by
    have none := coupled.uncalled fresh new
    have unused (l : Layer) (also : l ∈ d.Layers s.jobs) : l.cut d.cfg ≠ m.cut d.cfg := by
      intro same
      obtain rfl := sound.apart l (more l also) m active same
      exact fresh (new ▸ also.1)
    have idle (w : Nat) (worker : w ∈ (d.tree m.1).workers) :
        s.fabric.begun (m.ref w) = 0 ∧ s.fabric.done (m.ref w) = 0 := by
      have pace := coupled.paced.pace (m.ref w) ⟨worker,active.2.1⟩
      rw [(none w).1,(none w).2] at pace
      exact pace.of_ended
    have bare (x : Node) (station : (d.tree m.1).IsStation x) :
        ¬(net.switch x).holds (m.cut d.cfg) := by
      intro some
      obtain ⟨l,also,cut⟩ := holds x _ station.ne_worker some
      exact unused l also cut
    refine ⟨if_pos new,fun w worker => (idle w worker).1,fun w worker => (idle w worker).2,
      fun x station => ?_,fun x station key => (Switch.entries_of_bare (bare x station) key).1,
      fun x station key => (Switch.entries_of_bare (bare x station) key).2,fun w _ => ?_,
      fun fl member (same : fl.layer = m) => ?_,fun fl member (same : fl.layer = m) => ?_⟩
    · have cleaned := coupled.paced.cleaned m x station
      rw [(none _).1,(none _).2,if_pos rfl] at cleaned
      exact cleaned
    · by_contra some
      obtain ⟨l,also,cut⟩ := received w _ some
      exact unused l also cut
    · exact fresh (new ▸ same ▸ (sent fl member).1)
    · exact fresh (new ▸ same ▸ (got fl member).1)
  have flow : Flow (d.layers (s.jobs ++ [j])) exact lad' { s.fabric with net := net } := by
    refine coupled.flow.shift sound ⟨rfl,rfl,rfl,edits.records,edits.core.id,
      fun m active => laid.wired m.1 active.1,fun m _ => stocked.allocated m.1,rfl,
      fun fl member => ⟨more _ (flying fl member),kept _ (flying fl member)⟩,fun m active => ?_,
      fun fl member => ⟨member,more _ (sent fl member)⟩,
      fun fl member => ⟨member,more _ (got fl member)⟩⟩
    rcases List.mem_append.mp active.1 with old | new
    · exact Or.inl (kept m ⟨old,active.2⟩)
    · exact Or.inr (joins m active (List.mem_singleton.mp new))
  refine ⟨lad',⟨laid,stocked.allocated,stocked.sizes,stocked.whole,fun x tkey switch some => ?_,
    fun w tkey some => ?_⟩,?_,coupled.orderly.renew _ _,fun w i p position => ?_,flow⟩
  · obtain ⟨l,active,cut⟩ := holds x tkey switch some
    exact ⟨l,more l active,cut⟩
  · obtain ⟨l,active,cut⟩ := received w tkey some
    exact ⟨l,more l active,cut⟩
  · exact ⟨coupled.paced.pace,fun q some => more _ (coupled.paced.several q some),
      coupled.paced.cleaned⟩
  · exact List.mem_append_left _ (coupled.placed w i p position)

end place

end Coupled

/-- A contribution reaches a switch after the clean-ups of earlier allreduces. -/
def afterCleanUps : Label → Training → Prop
  | .deliver fl,s =>
    fl.hop.packet.upward = true → fl.turn ≤ s.fabric.cleaned fl.hop.dest fl.layer
  | _,_ => True

instance (label : Label) (s : Training) : Decidable (afterCleanUps label s) :=
  match label with
  | .deliver _ => inferInstanceAs (Decidable (_ → _))
  | .place _ | .execute _ _ | .elapse _ _ | .resume _ | .call _ => isTrue trivial

theorem Coupled.step (direct : d.scheduled = false) (cut : d.DistinctCut) (noWrap : d.NoWrap)
    (coupled : Coupled d exact lad s) {label : Label} (timely : exact → afterCleanUps label s)
    (taken : step d label s = some s') :
    (∃ lad', Coupled d exact lad' s') ∧
      (exact → s'.fabric.shadowed = s.fabric.shadowed) := by
  have keys := cut.keys
  have sound := Plan.layers_sound cut noWrap s.jobs
  cases stepped taken with
  | place fresh =>
    exact ⟨coupled.place fresh (Plan.layers_sound cut noWrap _),fun _ => rfl⟩
  | @execute j w placed worker idle =>
    obtain ⟨p,onward,_⟩ := s.iterate_onward d w j 0
    exact ⟨⟨lad,coupled.execute keys placed worker idle⟩,fun _ => by rw [onward.fabric]⟩
  | elapse taken =>
    have fabric := (elapse_frame taken).1
    exact ⟨⟨lad,coupled.elapses direct keys taken⟩,fun _ => by rw [fabric]⟩
  | job granted taken =>
    obtain ⟨p,onward,_⟩ := resumeJob_frame taken
    exact ⟨⟨lad,coupled.resumeJob keys granted taken⟩,fun _ => by rw [onward.fabric]⟩
  | @launch r k granted first =>
    exact ⟨coupled.launch (l := r.layer) (w := r.machine) sound direct keys granted first,
      fun _ => rfl⟩
  | @finish r k g granted second =>
    refine ⟨⟨lad,coupled.finish (l := r.layer) (w := r.machine) sound keys granted second⟩,
      fun _ => ?_⟩
    rw [(finish_fields d _ r k g).1]
    exact ((s.fabric.tally r g).cleanUp_fields d.cfg r k).2.2.2.2.1
  | call scheduled _ _ =>
    rw [direct] at scheduled
    cases scheduled
  | deliver member _ => exact coupled.deliver member sound keys timely

end Training
end CloudSim
