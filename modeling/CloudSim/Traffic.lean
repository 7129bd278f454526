import CloudSim.Fabric
import CloudSim.Ladder
import CloudSim.Lanes
import CloudSim.Tree
import Mathlib.Data.Finset.Card
import Mathlib.Data.List.TakeWhile

/-! What the packets of unchunked allreduces look like. The packets of one slot are numbered
through all allreduces of a layer; the number of a packet gives its version, its offset and
the allreduce it belongs to. -/
namespace CloudSim

def Config.pkts (cfg : Config) (gradSize : Nat) : Nat :=
  (gradSize + cfg.numUpdates - 1) / cfg.numUpdates

/-- No wrap-around of an `unsigned` misleads the workers: the first start past the gradient
ends the sending loop, and the start after the last packet of a slot is past the gradient. -/
structure Config.NoWrap (cfg : Config) (gradSize : Nat) : Prop where
  fits : gradSize < 2^32
  loop : cfg.pkts gradSize < cfg.numSlots → gradSize ≤ u32 (cfg.pkts gradSize * cfg.numUpdates)
  next : 1 < cfg.pkts gradSize → ∀ k < cfg.pkts gradSize,
    gradSize ≤ (k + cfg.numSlots) * cfg.numUpdates →
    gradSize ≤ Worker.nextStart cfg (k * cfg.numUpdates)

instance (cfg : Config) (gradSize : Nat) : Decidable (cfg.NoWrap gradSize) :=
  decidable_of_iff (_ ∧ _ ∧ _)
    ⟨fun ⟨fits,loop,after⟩ => ⟨fits,loop,after⟩,fun all => ⟨all.fits,all.loop,all.next⟩⟩

namespace Config
variable {cfg : Config} {gradSize : Nat}

theorem lt_pkts (updates : 0 < cfg.numUpdates) :
    k < cfg.pkts gradSize ↔ k * cfg.numUpdates < gradSize := by
  rw [pkts,← Nat.succ_le_iff,Nat.le_div_iff_mul_le updates,Nat.succ_mul]
  omega

/-- The division and its remainder are computed without a wrap-around. -/
theorem pktsExpected_of_pkts (updates : 0 < cfg.numUpdates) (small : cfg.pkts gradSize < 2^32) :
    Worker.pktsExpected cfg gradSize = cfg.pkts gradSize := by
  have whole : gradSize / cfg.numUpdates ≤ cfg.pkts gradSize :=
    Nat.div_le_div_right (by omega)
  have split := Nat.div_add_mod gradSize cfg.numUpdates
  have below := Nat.mod_lt gradSize updates
  simp only [Worker.pktsExpected,u32_of_lt (Nat.lt_of_le_of_lt whole small)]
  by_cases exact : gradSize % cfg.numUpdates = 0
  · rw [if_neg (fun odd => odd exact),pkts]
    apply Eq.symm
    rw [Nat.div_eq_iff updates,Nat.mul_comm]
    omega
  · have next : cfg.pkts gradSize = gradSize / cfg.numUpdates + 1 := by
      rw [pkts,Nat.div_eq_iff updates,Nat.mul_comm,Nat.mul_succ]
      omega
    rw [if_pos exact,u32_of_lt (by omega),next]

theorem pktsExpected_eq (updates : 0 < cfg.numUpdates) (fits : gradSize < 2^32) :
    Worker.pktsExpected cfg gradSize = cfg.pkts gradSize := by
  apply pktsExpected_of_pkts updates
  by_contra many
  have last : (2^32 - 1) * cfg.numUpdates < gradSize := (lt_pkts updates).mp (by omega)
  have grown := Nat.le_mul_of_pos_right (2^32 - 1) updates
  omega

/-- A start within the gradient is computed without a wrap-around. -/
theorem nextStart_within (fits : gradSize < 2^32)
    (within : (k + cfg.numSlots) * cfg.numUpdates < gradSize) :
    Worker.nextStart cfg (k * cfg.numUpdates) = (k + cfg.numSlots) * cfg.numUpdates := by
  rw [Nat.add_mul] at within ⊢
  rw [Worker.nextStart,Nat.mul_comm cfg.numUpdates,
    u32_of_lt (show cfg.numSlots * cfg.numUpdates < 2^32 by omega),u32_of_lt (by omega)]

theorem initialPackets_eq (updates : 0 < cfg.numUpdates) (noWrap : cfg.NoWrap gradSize)
    (objs : Objects) (w : Worker) (r : TensorRef) :
    w.initialPackets cfg objs gradSize r =
      (List.range (min cfg.numSlots (cfg.pkts gradSize))).map fun slot =>
        w.sendPacket objs (slot * cfg.numUpdates) 0 slot gradSize r := by
  have inside (k : Nat) (member : k ∈ List.range (min cfg.numSlots (cfg.pkts gradSize))) :
      u32 (k * cfg.numUpdates) = k * cfg.numUpdates ∧ k * cfg.numUpdates < gradSize := by
    have below := (lt_pkts updates).mp (Nat.lt_of_lt_of_le (List.mem_range.mp member)
      (Nat.min_le_right _ _))
    exact ⟨u32_of_lt (below.trans noWrap.fits),below⟩
  have loop : (List.range cfg.numSlots).takeWhile
      (fun slot => u32 (slot * cfg.numUpdates) < gradSize) =
      List.range (min cfg.numSlots (cfg.pkts gradSize)) := by
    rcases Nat.lt_or_ge (cfg.pkts gradSize) cfg.numSlots with short | long
    · obtain ⟨rest,split⟩ := Nat.exists_eq_add_of_lt short
      rw [Nat.min_eq_right short.le] at inside ⊢
      rw [split,Nat.add_assoc,List.range_add,List.takeWhile_append_of_pos (fun k member => by
          rw [(inside k member).1]; exact decide_eq_true (inside k member).2),
        List.range_succ_eq_map,List.map_cons,List.takeWhile_cons_of_neg,List.append_nil]
      simpa using noWrap.loop short
    · rw [Nat.min_eq_left long] at inside ⊢
      refine List.takeWhile_eq_self_iff.mpr fun k member => ?_
      rw [(inside k member).1]
      exact decide_eq_true (inside k member).2
  rw [Worker.initialPackets,loop]
  apply List.map_congr_left
  intro k member
  rw [(inside k member).1]

/-- The bound under which no offset of a gradient wraps around at all. -/
theorem noWrap_of_bound (updates : 0 < cfg.numUpdates) (slots : 0 < cfg.numSlots)
    (bound : gradSize + cfg.numUpdates * cfg.numSlots < 2^32) : cfg.NoWrap gradSize := by
  have fits : gradSize < 2^32 := by omega
  refine ⟨fits,fun _ => ?_,fun _ k member past => ?_⟩
  · have past : gradSize ≤ cfg.pkts gradSize * cfg.numUpdates :=
      Nat.not_lt.mp fun inside => Nat.lt_irrefl _ ((lt_pkts updates).mpr inside)
    have close : cfg.pkts gradSize * cfg.numUpdates < gradSize + cfg.numUpdates := by
      have part := Nat.div_mul_le_self (gradSize + cfg.numUpdates - 1) cfg.numUpdates
      rw [pkts]
      omega
    have one := Nat.le_mul_of_pos_right cfg.numUpdates slots
    rwa [u32_of_lt (by omega)]
  · have inside := (lt_pkts updates).mp member
    have product : cfg.numUpdates * cfg.numSlots = cfg.numSlots * cfg.numUpdates := Nat.mul_comm _ _
    rw [Nat.add_mul] at past
    rw [Worker.nextStart,u32_of_lt (show cfg.numUpdates * cfg.numSlots < 2^32 by omega),
      u32_of_lt (by omega)]
    omega

end Config

/-- One hop of a tree: from a worker to its ToR, on to the core, and back. -/
inductive Link where
  | up (w : Nat)
  | rise (t : Nat)
  | fall (t : Nat)
  | down (w : Nat)
  deriving DecidableEq

namespace Tree

def shape (tree : Tree) : Shape Nat Nat where
  leaves := { w | w ∈ tree.workers }
  inner := { t | t ∈ tree.tors }
  above := tree.torOf
  maps _ member := tree.torOf_mem member
  onto t member := (tree.involved t).mp member

theorem only_tor (tree : Tree) (flat : tree.flat = true) (one : t ∈ tree.tors)
    (other : s ∈ tree.tors) : s = t := by
  have few : tree.tors.length ≤ 1 := by simpa [Tree.flat] using flat
  obtain ⟨i,inside,rfl⟩ := List.getElem_of_mem one
  obtain ⟨j,also,rfl⟩ := List.getElem_of_mem other
  obtain rfl : i = j := by omega
  rfl

end Tree

namespace Link

def Valid (tree : Tree) : Link → Prop
  | up w | down w => w ∈ tree.workers
  | rise t | fall t => t ∈ tree.tors ∧ tree.flat = false

def dest (tree : Tree) : Link → Node
  | up w => .tor (tree.torOf w)
  | rise _ => .core
  | fall t => .tor t
  | down w => .worker w

def upward : Link → Bool
  | up _ | rise _ => true
  | fall _ | down _ => false

def source (tree : Tree) (coreId : Nat) : Link → Nat
  | up w => w
  | rise t => t
  | fall _ => coreId
  | down w => tree.torOf w

/-- The packets of a slot that have left the hop behind. -/
def low (l : Ladder Nat Nat) : Link → Nat
  | up w => l.counted w
  | rise t => l.joined t
  | fall t => l.relayed t
  | down w => l.got w

/-- The packets of a slot that have entered the hop. -/
def high (tree : Tree) (l : Ladder Nat Nat) : Link → Nat
  | up w => l.sent w
  | rise t => l.merged t
  | fall _ => l.reduced
  | down w => l.relayed (tree.torOf w)

end Link

/-- The hop that a packet is on, as its receiver can tell. -/
def Flight.link (fl : Flight) : Link :=
  match fl.hop.dest with
  | .worker w => .down w
  | .core => .rise fl.hop.packet.id
  | .tor t => if fl.hop.packet.upward then .up fl.hop.packet.id else .fall t

theorem Flight.link_down {fl : Flight} : fl.link = .down w ↔ fl.hop.dest = .worker w := by
  unfold Flight.link
  split
  · rename_i v dest; rw [dest]; simp
  · rename_i dest; rw [dest]; simp
  · rename_i t dest; rw [dest]; split <;> simp

theorem Flight.id_of_link {fl : Flight} (up : fl.link = .up w) : fl.hop.packet.id = w := by
  unfold Flight.link at up
  split at up
  · cases up
  · cases up
  · split at up
    · exact Link.up.inj up
    · cases up

/-- Where a packet can be: a hop of a slot of a layer. -/
structure Place where
  layer : Layer
  slot : Nat
  link : Link
  deriving DecidableEq

def Flight.place (fl : Flight) : Place := ⟨fl.layer,fl.hop.packet.slot,fl.link⟩

/-- The jobs in a network and the layers that their workers reduce. -/
structure Traffic where
  cfg : Config
  tree : Nat → Tree
  size : Layer → Nat
  active : Set Layer
  coreId : Nat

/-- The conditions under which the protocol works. -/
structure Traffic.Sound (tr : Traffic) : Prop where
  slots : 0 < tr.cfg.numSlots
  updates : 0 < tr.cfg.numUpdates
  several : ∀ l ∈ tr.active, 2 ≤ (tr.tree l.1).workers.length
  few : ∀ l ∈ tr.active, (tr.tree l.1).workers.length < 2^31
  positive : ∀ l ∈ tr.active, 0 < tr.size l
  noWrap : ∀ l ∈ tr.active, tr.cfg.NoWrap (tr.size l)
  apart : ∀ l ∈ tr.active, ∀ m ∈ tr.active, l.cut tr.cfg = m.cut tr.cfg → l = m

namespace Traffic
variable (tr : Traffic) (l : Layer) (s : Nat)

def pkts : Nat := tr.cfg.pkts (tr.size l)

/-- The packets of a slot in one allreduce. -/
def rounds : Nat := Lanes.rounds (tr.pkts l) tr.cfg.numSlots s

def ver (q : Nat) : Nat := q % tr.rounds l s % 2

def turn (q : Nat) : Nat := q / tr.rounds l s

def offset (q : Nat) : Nat := Lanes.item (tr.pkts l) tr.cfg.numSlots s q * tr.cfg.numUpdates

/-- Packet `q` of a place; the worker `owner` allocated the tensor that it points to. -/
def flight (p : Place) (q owner : Nat) : Flight where
  hop :=
    { dest := p.link.dest (tr.tree p.layer.1)
      packet :=
        { jobId := p.layer.1, nWorkers := (tr.tree p.layer.1).workers.length,
          gradSize := tr.size p.layer, upward := p.link.upward,
          id := p.link.source (tr.tree p.layer.1) tr.coreId, slot := p.slot,
          ver := tr.ver p.layer p.slot q, offset := tr.offset p.layer p.slot q,
          tensor := p.layer.ref owner } }
  turn := tr.turn p.layer p.slot q

theorem flight_place (p : Place) (q owner : Nat) : (tr.flight p q owner).place = p := by
  obtain ⟨l,s,link⟩ := p
  cases link <;> rfl

variable {tr} {l} {s}

theorem ver_lt (q : Nat) : tr.ver l s q < 2 := Nat.mod_lt _ (by decide)

theorem sub_ver (q : Nat) : sub32 1 (tr.ver l s q) = 1 - tr.ver l s q :=
  sub32_of_le (Nat.le_of_lt_succ (ver_lt q)) (by decide)

theorem ver_succ (more : q % tr.rounds l s + 1 < tr.rounds l s) :
    tr.ver l s (q + 1) = 1 - tr.ver l s q := by
  simp only [ver,Lanes.mod_succ more]
  omega

theorem turn_succ (more : q % tr.rounds l s + 1 < tr.rounds l s) :
    tr.turn l s (q + 1) = tr.turn l s q := Lanes.div_succ more

end Traffic
end CloudSim
