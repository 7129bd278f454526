import CloudSim.Rounds

/-! The state of every layer between and during its rounds. An entry of a switch belongs to a
layer whose round is under way and has not been cleaned up at that switch. -/
namespace CloudSim

namespace Deployment
variable (d : Deployment) {l : Layer} {base : Nat} {t : Tensor}

/-- The gradient of a round that finds `base` elements of the layer reduced. -/
def gradSize (l : Layer) (base : Nat) : Nat :=
  if d.chunkSize = 0 then d.size l else min (d.size l - base) d.chunkSize

def following (l : Layer) (base : Nat) : Nat :=
  if d.size l ≤ base + d.gradSize l base then 0 else base + d.gradSize l base

theorem following_whole (all : d.chunkSize = 0) : d.following l base = 0 := by
  rw [following,gradSize,if_pos all,if_pos (Nat.le_add_left _ _)]

section round
variable (below : base < d.size l)
include below

theorem gradSize_pos : 0 < d.gradSize l base := by
  unfold gradSize
  split
  · exact d.positive l
  · omega

theorem following_lt : d.following l base < d.size l := by
  unfold following
  split <;> omega

theorem allreduceSize_eq (size : t.size = d.size l) (reduced : t.allreducedSize = base) :
    Worker.allreduceSize d.chunkSize t = d.gradSize l base := by
  have fits := d.sizeFits l
  rw [Worker.allreduceSize,gradSize,size,reduced,sub64_of_le (by omega) fits]

variable (whole : d.chunkSize = 0 → base = 0)
include whole

theorem total_le : base + d.gradSize l base ≤ d.size l := by
  unfold gradSize
  split
  · rename_i all
    rw [whole all,Nat.zero_add]
  · omega

theorem advanceTensor_eq (size : t.size = d.size l) (reduced : t.allreducedSize = base) :
    (Worker.advanceTensor t (d.gradSize l base)).size = d.size l ∧
      (Worker.advanceTensor t (d.gradSize l base)).allreducedSize = d.following l base ∧
      (Worker.advanceTensor t (d.gradSize l base)).numPktsExpected = t.numPktsExpected := by
  have total := d.total_le below whole
  have fits := d.sizeFits l
  simp only [Worker.advanceTensor,following,size,reduced,u64_of_lt (total.trans_lt fits)]
  split <;> exact ⟨rfl,rfl,rfl⟩

end round

theorem sound {size base : Layer → Nat} {opened : List Layer}
    (several : ∀ l ∈ opened, 2 ≤ (d.tree l.1).workers.length) (below : ∀ l, base l < d.size l)
    (sized : ∀ l ∈ opened, size l = d.gradSize l (base l))
    (noWrap : ∀ l ∈ opened, d.cfg.NoWrap (size l))
    (apart : ∀ l ∈ opened, ∀ m ∈ opened, l.cut d.cfg = m.cut d.cfg → l = m) :
    (d.traffic size opened).Sound where
  slots := d.slots
  updates := d.updates
  several := several
  few l _ := d.few l.1
  positive l active := by
    change 0 < size l
    rw [sized l active]
    exact d.gradSize_pos (below l)
  noWrap := noWrap
  apart := apart

end Deployment

namespace Rounds
variable {d : Deployment} {s : Rounds} {size base : Layer → Nat} {lad : Ladders} {l : Layer}
  {w : Nat}

/-- Where one worker stands in the rounds of a layer: its stage, the allreduces it has begun and
received in this round, and how much of its tensor is reduced. -/
inductive Standing (opened : Prop) (size before after : Nat) : CallStage → Nat → Nat → Nat → Prop where
  | waiting {now : CallStage} : ¬opened → now.rests = true →
    Standing opened size before after now 0 0 before
  | called : opened → Standing opened size before after .called 0 0 before
  | sending : opened → Standing opened size before after (.sending size) 1 0 before
  | released : opened → Standing opened size before after (.released size) 1 1 before
  | ended {now : CallStage} : opened → now.rests = true →
    Standing opened size before after now 1 1 after

namespace Standing
variable {opened : Prop} {size before after begun done reduced : Nat} {now : CallStage}

theorem of_called (standing : Standing opened size before after .called begun done reduced) :
    opened ∧ begun = 0 ∧ done = 0 ∧ reduced = before := by
  cases standing with
  | waiting _ rests => cases rests
  | called active => exact ⟨active,rfl,rfl,rfl⟩
  | ended _ rests => cases rests

theorem of_released
    (standing : Standing opened size before after (.released gradSize) begun done reduced) :
    opened ∧ gradSize = size ∧ begun = 1 ∧ done = 1 ∧ reduced = before := by
  cases standing with
  | waiting _ rests => cases rests
  | released active => exact ⟨active,rfl,rfl,rfl,rfl⟩
  | ended _ rests => cases rests

theorem of_rests (standing : Standing opened size before after now begun done reduced)
    (rests : now.rests = true) (active : opened) : begun = 1 ∧ done = 1 ∧ reduced = after := by
  cases standing with
  | waiting idle => exact absurd active idle
  | called => cases rests
  | sending => cases rests
  | released => cases rests
  | ended => exact ⟨rfl,rfl,rfl⟩

theorem begun_le (standing : Standing opened size before after now begun done reduced) :
    begun ≤ 1 := by
  cases standing <;> decide

/-- Only a call that waits for results has begun an allreduce and not received it. -/
theorem of_outstanding (standing : Standing opened size before after now begun done reduced)
    (outstanding : done < begun) :
    opened ∧ now = .sending size ∧ begun = 1 ∧ done = 0 ∧ reduced = before := by
  cases standing with
  | sending active => exact ⟨active,rfl,rfl,rfl,rfl⟩
  | _ => exact absurd outstanding (by decide)

theorem of_idle (standing : Standing opened size before after now begun done reduced)
    (idle : ¬opened) : now.rests = true ∧ begun = 0 ∧ done = 0 ∧ reduced = before := by
  cases standing with
  | waiting _ rests => exact ⟨rests,rfl,rfl,rfl⟩
  | called active => exact absurd active idle
  | sending active => exact absurd active idle
  | released active => exact absurd active idle
  | ended active => exact absurd active idle

theorem exchange (standing : Standing opened size before after now begun done reduced)
    (rests : now.rests = true) (also : later.rests = true) :
    Standing opened size before after later begun done reduced := by
  cases standing with
  | waiting idle => exact .waiting idle also
  | called => cases rests
  | sending => cases rests
  | released => cases rests
  | ended active => exact .ended active also

end Standing

/-- A round that has not ended has a call that has not. -/
def Busy (d : Deployment) (s : Rounds) : Prop :=
  ∀ l ∈ s.opened, ∃ w ∈ (d.tree l.1).workers, (s.stage (l.ref w)).rests = false

structure Inv (d : Deployment) (size base : Layer → Nat) (lad : Ladders) (s : Rounds) : Prop where
  laid : Laid d s.jobs s.fabric.net
  allocated : ∀ j, s.fabric.objs.numWorkersAllocated j = (d.tree j).workers.length
  sizes : ∀ r, (s.fabric.objs.tensor r).size = d.size r.layer
  placed : ∀ l ∈ s.opened, l.1 ∈ s.jobs
  several : ∀ l ∈ s.opened, 2 ≤ (d.tree l.1).workers.length
  sharing : ∀ r, s.stage r ≠ .idle ∨ 0 < (s.fabric.objs.tensor r).allreducedSize →
    2 ≤ (d.tree r.job).workers.length
  distinct : s.opened.Nodup
  apart : ∀ l ∈ s.opened, ∀ m ∈ s.opened, l.cut d.cfg = m.cut d.cfg → l = m
  noWrap : ∀ l ∈ s.opened, d.cfg.NoWrap (size l)
  sized : ∀ l ∈ s.opened, size l = d.gradSize l (base l)
  below : ∀ l, base l < d.size l
  whole : d.chunkSize = 0 → ∀ l, base l = 0
  strangers : ∀ r, r.machine ∉ (d.tree r.job).workers → s.stage r = .idle
  standing : ∀ l, ∀ w ∈ (d.tree l.1).workers,
    Standing (l ∈ s.opened) (size l) (base l) (d.following l (base l)) (s.stage (l.ref w))
      (s.fabric.begun (l.ref w)) (s.fabric.done (l.ref w))
      (s.fabric.objs.tensor (l.ref w)).allreducedSize
  /-- The cleaner of a switch clears it when its own call ends. -/
  cleaned : ∀ l x, (d.tree l.1).IsStation x → l ∈ s.opened →
    (s.stage (l.ref ((d.tree l.1).cleanerOf x))).rests = true → s.fabric.cleaned x l = 1
  uncleaned : ∀ l x, (d.tree l.1).IsStation x →
    (l ∈ s.opened → (s.stage (l.ref ((d.tree l.1).cleanerOf x))).rests = false) →
    s.fabric.cleaned x l = 0
  owned : ∀ x tkey, (∀ w, x ≠ .worker w) → (s.fabric.net.switch x).holds tkey →
    ∃ l ∈ s.opened, l.cut d.cfg = tkey ∧ (d.tree l.1).IsStation x ∧ s.fabric.cleaned x l = 0 ∧
      ∃ w ∈ (d.tree l.1).workers, 0 < s.fabric.begun (l.ref w)
  received : ∀ w tkey, (s.fabric.net.worker w).received tkey ≠ ∅ →
    ∃ l ∈ s.opened, l.cut d.cfg = tkey ∧ w ∈ (d.tree l.1).workers
  flow : Flow (d.traffic size s.opened) True lad s.fabric
  noShadow : s.fabric.shadowed = []

namespace Inv

theorem sound (inv : Inv d size base lad s) : (d.traffic size s.opened).Sound :=
  d.sound inv.several inv.below inv.sized inv.noWrap inv.apart

/-- When the calls of a round have just been made, nothing of the layer is left. -/
theorem startsClean (inv : Inv d size base lad s) : StartsClean d s := by
  refine ⟨fun l called => ?_,inv.noShadow⟩
  have waits (w : Nat) (worker : w ∈ (d.tree l.1).workers) :
      l ∈ s.opened ∧ s.fabric.begun (l.ref w) = 0 := by
    have standing := inv.standing l w worker
    rw [called w worker] at standing
    exact ⟨standing.of_called.1,standing.of_called.2.1⟩
  obtain ⟨v,member⟩ := d.exists_worker l.1
  have opened := (waits v member).1
  have bare (x : Node) (switch : ∀ w, x ≠ .worker w) :
      ¬(s.fabric.net.switch x).holds (l.cut d.cfg) := by
    intro holds
    obtain ⟨m,active,cut,_,_,w,worker,begun⟩ := inv.owned x _ switch holds
    obtain rfl := inv.apart m active l opened cut
    rw [(waits w worker).2] at begun
    exact absurd begun (Nat.lt_irrefl 0)
  refine ⟨fun x switch => ?_,fun x switch => ?_,fun fl member same => ?_⟩
  · exact not_not.mp (not_or.mp (bare x switch)).1
  · exact not_not.mp (not_or.mp (bare x switch)).2
  · obtain ⟨owner,worker,launched,_⟩ := inv.flow.links.stamped fl member
    rw [show fl.place.layer = l from same] at worker launched
    rw [(waits owner worker).2] at launched
    exact absurd launched (Nat.lt_irrefl 0)

end Inv

theorem initial_inv (d : Deployment) :
    Inv d (fun _ => 0) (fun _ => 0) (fun _ _ => Ladder.ground) (initial d) where
  laid := ⟨HierarchicalTopology.initNetwork_built _,
    fun j _ => HierarchicalTopology.initNetwork_unplaced _ j,(fun _ member => by cases member),rfl⟩
  allocated _ := rfl
  sizes _ := rfl
  placed _ active := by cases active
  several _ active := by cases active
  sharing _ some := by rcases some with calls | part <;> contradiction
  distinct := List.nodup_nil
  apart _ active := by cases active
  noWrap _ active := by cases active
  sized _ active := by cases active
  below l := d.positive l
  whole _ _ := rfl
  strangers _ _ := rfl
  standing l w _ := .waiting (fun active => by cases active) rfl
  cleaned _ _ _ active := by cases active
  uncleaned _ _ _ _ := rfl
  owned x tkey switch holds := by
    cases x with
    | tor t => rcases holds with some | some <;> exact absurd rfl some
    | core => rcases holds with some | some <;> exact absurd rfl some
    | worker w => exact absurd rfl (switch w)
  received w tkey some := absurd rfl some
  flow := by
    have sound : (d.traffic (fun _ => 0) []).Sound :=
      @Deployment.sound d _ (fun _ => 0) [] (fun _ active => by cases active) d.positive
        (fun _ active => by cases active) (fun _ active => by cases active)
        fun _ active => by cases active
    refine Flow.initial sound True _ ?_ rfl ?_ ⟨?_,?_,?_⟩
    all_goals
      intro l active
      cases active
  noShadow := rfl

namespace Inv

theorem place (inv : Inv d size base lad s) (fresh : j ∉ s.jobs) :
    let net := d.topo.setSwitchNumUpdates j (d.tree j).workers (d.tree j).tors s.fabric.net
    Inv d size base lad
      { s with fabric := { s.fabric with net := net }, jobs := s.jobs ++ [j] } := by
  intro net
  have edits : HierarchicalTopology.Edits j s.fabric.net net :=
    d.topo.setSwitchNumUpdates_edits j (d.tree j).workers (d.tree j).tors s.fabric.net
  have laid := inv.laid.place fresh
  have job (m : Layer) (active : m ∈ s.opened) : m.1 ∈ s.jobs ++ [j] :=
    List.mem_append_left _ (inv.placed m active)
  refine { inv with laid := laid, placed := job, owned := ?_, received := ?_, flow := ?_ }
  · exact fun x tkey switch holds => inv.owned x tkey switch
      ((Flow.holds_of_records edits.records x tkey).mp holds)
  · intro w tkey some
    rw [show ((net.worker w).received tkey) = _ from
      Flow.received_of_records edits.records w tkey] at some
    exact inv.received w tkey some
  · exact inv.flow.renew inv.sound edits.records edits.core.id
      (fun m active => laid.wired _ (job m active)) rfl fun _ => rfl

theorem enqueue (inv : Inv d size base lad s) (real : s.allocated d r)
    (several : 2 ≤ (d.tree r.job).workers.length) (idle : s.stage r = .idle) :
    Inv d size base lad { s with stage := Function.update s.stage r .enqueued } := by
  have rests (q : TensorRef) : (Function.update s.stage r .enqueued q).rests = (s.stage q).rests := by
    rcases eq_or_ne q r with rfl | other
    · rw [Function.update_self,idle]; rfl
    · rw [Function.update_of_ne other]
  refine { inv with sharing := ?_, strangers := ?_, standing := ?_, cleaned := ?_, uncleaned := ?_ }
  · intro q some
    dsimp only at some
    rcases eq_or_ne q r with rfl | other
    · exact several
    · rw [Function.update_of_ne other] at some
      exact inv.sharing q some
  · intro q outside
    dsimp only
    rcases eq_or_ne q r with rfl | other
    · exact absurd real.2.2 outside
    · rw [Function.update_of_ne other]
      exact inv.strangers q outside
  · intro l w worker
    have standing := inv.standing l w worker
    dsimp only
    rcases eq_or_ne (l.ref w) r with rfl | other
    · rw [Function.update_self]
      exact standing.exchange (by rw [idle]; rfl) rfl
    · rw [Function.update_of_ne other]
      exact standing
  · intro l x station
    simp only [rests]
    exact inv.cleaned l x station
  · intro l x station
    simp only [rests]
    exact inv.uncleaned l x station

/-- Nothing is left of a layer without a round, when no layer with a round has its key. -/
theorem joins (inv : Inv d size base lad s) (absent : l ∉ s.opened)
    (alone : ∀ m ∈ s.opened, m.cut d.cfg = l.cut d.cfg → m = l) {size' : Layer → Nat}
    {opened : List Layer} : Flow.Joins (d.traffic size' opened)
      (Function.update lad l fun _ => Ladder.ground) s.fabric l := by
  have waits (w : Nat) (worker : w ∈ (d.tree l.1).workers) := (inv.standing l w worker).of_idle absent
  have bare (x : Node) (station : (d.tree l.1).IsStation x) :
      ¬(s.fabric.net.switch x).holds (l.cut d.cfg) := by
    intro holds
    obtain ⟨m,active,cut,_⟩ := inv.owned x _ station.ne_worker holds
    exact absent (alone m active cut ▸ active)
  refine
    { ladder := Function.update_self .., begun := fun w worker => (waits w worker).2.1,
      done := fun w worker => (waits w worker).2.2.1,
      cleaned := fun x station => inv.uncleaned l x station fun active => absurd active absent,
      counts := fun x station key => (Switch.entries_of_bare (bare x station) key).1,
      seen := fun x station key => (Switch.entries_of_bare (bare x station) key).2,
      received := fun w worker => ?_, sent := ?_, got := ?_ }
  · by_contra some
    obtain ⟨m,active,cut,_⟩ := inv.received w _ some
    exact absent (alone m active cut ▸ active)
  · rintro fl member rfl
    exact absent (inv.flow.sentProper fl member).1.1
  · rintro fl member rfl
    exact absent (inv.flow.gotProper fl member).1.1

theorem joined (inv : Inv d size base lad s) (absent : l ∉ s.opened) (known : l.1 ∈ s.jobs)
    (alone : ∀ m ∈ s.opened, m.cut d.cfg = l.cut d.cfg → m = l) {g : Nat}
    (sound : (d.traffic (Function.update size l g) (s.opened ++ [l])).Sound) :
    Flow (d.traffic (Function.update size l g) (s.opened ++ [l])) True
      (Function.update lad l fun _ => Ladder.ground) s.fabric := by
  have grown (m : Layer) (active : m ∈ s.opened) : m ∈ s.opened ++ [l] :=
    List.mem_append_left _ active
  have kept (m : Layer) (active : m ∈ s.opened) : Flow.Kept (d.traffic size s.opened)
      (d.traffic (Function.update size l g) (s.opened ++ [l])) lad
      (Function.update lad l fun _ => Ladder.ground) s.fabric s.fabric m := by
    have other : m ≠ l := fun same => absent (same ▸ active)
    exact ⟨active,Function.update_of_ne other ..,Function.update_of_ne other ..,fun _ => rfl,
      fun _ => rfl,fun _ => rfl,fun _ => rfl,rfl,rfl⟩
  have job (m : Layer) (active : m ∈ s.opened ++ [l]) : m.1 ∈ s.jobs := by
    rcases List.mem_append.mp active with old | new
    · exact inv.placed m old
    · rw [List.mem_singleton.mp new]; exact known
  refine inv.flow.shift sound
    { cfg := rfl, tree := rfl, coreId := rfl, core := rfl, inflight := rfl,
      records := ⟨fun _ => rfl,rfl,fun _ => rfl⟩,
      wired := fun m active => inv.laid.wired _ (job m active),
      allocated := fun m _ => inv.allocated m.1, flying := ?_, layers := ?_, sent := ?_, got := ?_ }
  · intro fl member
    have active := (inv.flow.links.proper fl member).1
    exact ⟨grown _ active,kept _ active⟩
  · intro m active
    rcases List.mem_append.mp active with old | new
    · exact Or.inl (kept m old)
    · rw [List.mem_singleton.mp new]
      exact Or.inr (inv.joins absent alone)
  · exact fun fl member => ⟨member,grown _ (inv.flow.sentProper fl member).1.1⟩
  · exact fun fl member => ⟨member,grown _ (inv.flow.gotProper fl member).1.1⟩

theorem start_apart (inv : Inv d size base lad s) (may : Rounds.apart d (.start l) s) :
    ∀ m ∈ s.opened ++ [l], ∀ n ∈ s.opened ++ [l], m.cut d.cfg = n.cut d.cfg → m = n := by
  simp only [List.mem_append,List.mem_singleton]
  rintro m (first | rfl) n (second | rfl) same
  · exact inv.apart m first n second same
  · exact may.1 m first same
  · exact (may.1 n second same.symm).symm
  · rfl

theorem start_sized (inv : Inv d size base lad s) (active : m ∈ s.opened ++ [l]) :
    Function.update size l (d.gradSize l (base l)) m = d.gradSize m (base m) := by
  rcases eq_or_ne m l with rfl | other
  · rw [Function.update_self]
  · rw [Function.update_of_ne other]
    simp only [List.mem_append,List.mem_singleton,other,or_false] at active
    exact inv.sized m active

theorem start_noWrap (inv : Inv d size base lad s) (absent : l ∉ s.opened)
    (may : Rounds.apart d (.start l) s) (active : m ∈ s.opened ++ [l]) :
    d.cfg.NoWrap (Function.update size l (d.gradSize l (base l)) m) := by
  rcases eq_or_ne m l with rfl | other
  · obtain ⟨w,worker⟩ := d.exists_worker m.1
    have reduced := ((inv.standing m w worker).of_idle absent).2.2.2
    have fit := may.2 w worker
    rwa [d.allreduceSize_eq (inv.below m) (inv.sizes _) reduced,
      ← Function.update_self m (d.gradSize m (base m)) size] at fit
  · rw [Function.update_of_ne other]
    simp only [List.mem_append,List.mem_singleton,other,or_false] at active
    exact inv.noWrap m active

section start
variable (ready : s.ready d l)
include ready

theorem resting (w : Nat) (worker : w ∈ (d.tree l.1).workers) :
    (s.stage (l.ref w)).rests = true := by
  rcases ready with queued | part
  · rw [queued w worker]; rfl
  · rw [(part w worker).1]; rfl

theorem closed (busy : Busy d s) : l ∉ s.opened := by
  intro active
  obtain ⟨w,worker,calls⟩ := busy l active
  rw [resting ready w worker] at calls
  cases calls

theorem shared (inv : Inv d size base lad s) : 2 ≤ (d.tree l.1).workers.length := by
  obtain ⟨w,worker⟩ := d.exists_worker l.1
  apply inv.sharing (l.ref w)
  rcases ready with queued | part
  · rw [queued w worker]
    exact Or.inl CallStage.noConfusion
  · exact Or.inr (part w worker).2

theorem start (inv : Inv d size base lad s) (busy : Busy d s) (known : l.1 ∈ s.jobs)
    (may : Rounds.apart d (.start l) s) :
    Inv d (Function.update size l (d.gradSize l (base l))) base
      (Function.update lad l fun _ => Ladder.ground)
      { s with
        stage := fun r => if r.layer = l ∧ r.machine ∈ (d.tree l.1).workers then .called
          else s.stage r
        opened := s.opened ++ [l] } := by
  have absent := closed ready busy
  have waits (w : Nat) (worker : w ∈ (d.tree l.1).workers) := (inv.standing l w worker).of_idle absent
  have member (m : Layer) : m ∈ s.opened ++ [l] ↔ m ∈ s.opened ∨ m = l := by simp
  have elsewhere (m : Layer) (other : m ≠ l) (w : Nat) :
      ¬((m.ref w).layer = l ∧ (m.ref w).machine ∈ (d.tree l.1).workers) :=
    fun both => other both.1
  have several : ∀ m ∈ s.opened ++ [l], 2 ≤ (d.tree m.1).workers.length := by
    intro m active
    rcases (member m).mp active with old | rfl
    · exact inv.several m old
    · exact shared ready inv
  have apart := inv.start_apart may
  have sized : ∀ m ∈ s.opened ++ [l],
      Function.update size l (d.gradSize l (base l)) m = d.gradSize m (base m) :=
    fun m active => inv.start_sized active
  have noWrap : ∀ m ∈ s.opened ++ [l],
      d.cfg.NoWrap (Function.update size l (d.gradSize l (base l)) m) :=
    fun m active => inv.start_noWrap absent may active
  refine
    { inv with
      placed := ?_
      several := several
      sharing := ?_
      distinct := ?_
      apart := apart
      noWrap := noWrap
      sized := sized
      strangers := ?_
      standing := ?_
      cleaned := ?_
      uncleaned := ?_
      owned := ?_
      received := ?_
      flow := ?_ }
  · intro m active
    rcases (member m).mp active with old | rfl
    · exact inv.placed m old
    · exact known
  · intro r some
    dsimp only at some
    split at some
    · rename_i both
      rw [show r.job = l.1 from congrArg Prod.fst both.1]
      exact shared ready inv
    · exact inv.sharing r some
  · exact List.nodup_append.mpr ⟨inv.distinct,List.nodup_singleton _,fun m old n new same =>
      absent (List.mem_singleton.mp new ▸ same ▸ old)⟩
  · intro r outside
    dsimp only
    rw [if_neg fun both => outside (by rw [← both.1] at both; exact both.2)]
    exact inv.strangers r outside
  · intro m w worker
    dsimp only
    rcases eq_or_ne m l with rfl | other
    · obtain ⟨_,begun,done,reduced⟩ := waits w worker
      rw [if_pos ⟨rfl,worker⟩,begun,done,reduced]
      exact .called ((member m).mpr (Or.inr rfl))
    · rw [if_neg (elsewhere m other w),Function.update_of_ne other]
      have standing := inv.standing m w worker
      rwa [show m ∈ s.opened ↔ m ∈ s.opened ++ [l] by simp [other]] at standing
  · intro m x station active
    dsimp only
    rcases eq_or_ne m l with rfl | other
    · rw [if_pos ⟨rfl,Tree.cleanerOf_mem station⟩]
      intro rests
      cases rests
    · rw [if_neg (elsewhere m other _)]
      exact inv.cleaned m x station (((member m).mp active).resolve_right other)
  · intro m x station
    dsimp only
    rcases eq_or_ne m l with rfl | other
    · exact fun _ => inv.uncleaned m x station fun active => absurd active absent
    · rw [if_neg (elsewhere m other _)]
      exact fun calls => inv.uncleaned m x station fun active =>
        calls ((member m).mpr (Or.inl active))
  · intro x tkey switch holds
    obtain ⟨m,active,rest⟩ := inv.owned x tkey switch holds
    exact ⟨m,(member m).mpr (Or.inl active),rest⟩
  · intro w tkey some
    obtain ⟨m,active,rest⟩ := inv.received w tkey some
    exact ⟨m,(member m).mpr (Or.inl active),rest⟩
  · exact inv.joined absent known may.1 (d.sound several inv.below sized noWrap apart)

end start

end Inv
end Rounds
end CloudSim
