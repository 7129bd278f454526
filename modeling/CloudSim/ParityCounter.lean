import Mathlib.Data.Finset.Card
import Mathlib.Data.Finset.Range

/-! Groups whose members go through rounds, and two cells that count who has ended a round. A round
uses the cell of its parity, and a cell that becomes full clears the other one. -/
namespace CloudSim.ParityCounter

/-- Member `t` of group `g` has ended `done g t` rounds. -/
abbrev Rounds (G : Type) := G → Nat → Nat

variable {G : Type} (size : G → Nat) (done : Rounds G)

/-- All members of the group have ended the round. -/
def Complete (g : G) (round : Nat) : Prop := ∀ t < size g, round < done g t

instance (g : G) (round : Nat) : Decidable (Complete size done g round) :=
  inferInstanceAs (Decidable (∀ t < size g, _))

def numDone (g : G) (round : Nat) : Nat :=
  ((Finset.range (size g)).filter fun t => round < done g t).card

/-- The complete ones of the first `n` rounds. -/
def numComplete (n : Nat) (g : G) : Nat :=
  ((Finset.range n).filter fun round => Complete size done g round).card

variable {size done} {done' : Rounds G} {round : Nat}

theorem complete_iff_numDone :
    Complete size done g round ↔ numDone size done g round = size g := by
  have full := Finset.card_filter_eq_iff (s := Finset.range (size g))
    (p := fun t => round < done g t)
  rw [Finset.card_range] at full
  rw [numDone,full]
  simp [Complete]

/-- Member `t` of `g` ends the round `done g t`, and nobody else ends one. -/
def Ends (size : G → Nat) (live : G → Prop) (done done' : Rounds G) (g : G) (t : Nat) : Prop :=
  ∀ i, live i → ∀ u < size i,
    (i = g ∧ u = t → done' i u = done i u + 1) ∧ (¬(i = g ∧ u = t) → done' i u = done i u)

variable {live : G → Prop} {g : G} {t n : Nat}

section ends
variable (ends : Ends size live done done' g t) (alive : live g) (inside : t < size g)
include ends alive inside

theorem numDone_ends : numDone size done' g (done g t) = numDone size done g (done g t) + 1 := by
  have grows : (Finset.range (size g)).filter (fun u => done g t < done' g u) =
      insert t ((Finset.range (size g)).filter fun u => done g t < done g u) := by
    ext u
    simp only [Finset.mem_filter,Finset.mem_range,Finset.mem_insert]
    constructor
    · rintro ⟨below,past⟩
      rcases eq_or_ne u t with rfl | other
      · exact Or.inl rfl
      · rw [(ends g alive u below).2 fun same => other same.2] at past
        exact Or.inr ⟨below,past⟩
    · rintro (rfl | ⟨below,past⟩)
      · exact ⟨inside,by rw [(ends g alive u inside).1 ⟨rfl,rfl⟩]; omega⟩
      · rcases eq_or_ne u t with rfl | other
        · omega
        · rw [(ends g alive u below).2 fun same => other same.2]
          exact ⟨below,past⟩
  rw [numDone,grows,Finset.card_insert_of_notMem (by simp),numDone]

theorem numComplete_ends (level : ∀ u < size g, done g t ≤ done g u) (early : done g t < n) :
    numComplete size done' n g = numComplete size done n g +
      if Complete size done' g (done g t) then 1 else 0 := by
  have before (round : Nat) : Complete size done g round ↔ round < done g t :=
    ⟨fun all => all t inside,fun past u below => past.trans_le (level u below)⟩
  have after (round : Nat) (apart : round ≠ done g t) :
      Complete size done' g round ↔ round < done g t := by
    refine ⟨fun all => ?_,fun past u below => ?_⟩
    · have last := all t inside
      rw [(ends g alive t inside).1 ⟨rfl,rfl⟩] at last
      omega
    · have := level u below
      rcases eq_or_ne u t with rfl | other
      · rw [(ends g alive u below).1 ⟨rfl,rfl⟩]
        omega
      · rw [(ends g alive u below).2 fun same => other same.2]
        omega
  unfold numComplete
  split
  · rename_i full
    have grows : (Finset.range n).filter (fun round => Complete size done' g round) =
        insert (done g t) ((Finset.range n).filter fun round => Complete size done g round) := by
      ext round
      simp only [Finset.mem_filter,Finset.mem_range,Finset.mem_insert,before]
      rcases eq_or_ne round (done g t) with rfl | apart
      · simp [early,full]
      · simp [after round apart,apart]
    rw [grows,Finset.card_insert_of_notMem (by simp [before])]
  · rename_i open'
    refine congrArg Finset.card (Finset.filter_congr fun round _ => ?_)
    rw [before]
    rcases eq_or_ne round (done g t) with rfl | apart
    · simp [open']
    · exact after round apart

end ends

theorem complete_congr (same : ∀ t < size g, done' g t = done g t) :
    Complete size done' g round ↔ Complete size done g round :=
  forall₂_congr fun t below => by rw [same t below]

theorem numComplete_congr (same : ∀ t < size g, done' g t = done g t) :
    numComplete size done' n g = numComplete size done n g :=
  congrArg Finset.card (Finset.filter_congr fun _ _ => complete_congr same)

theorem numDone_le (size : G → Nat) (done : Rounds G) (g : G) (round : Nat) :
    numDone size done g round ≤ size g :=
  (Finset.card_filter_le _ _).trans_eq (Finset.card_range _)

/-- The cells count the last group that ended a round. Every other group is between two rounds. -/
structure Counts (size : G → Nat) (live : G → Prop) (done : Rounds G) (cell : Nat → Nat)
    (last : Option (G × Nat)) : Prop where
  alive : ∀ g round, last = some (g,round) → live g
  fresh : last = none → (∀ b, cell b = 0) ∧ ∀ g, live g → ∀ t < size g, done g t = 0
  level : ∀ g, live g → (∀ round, last ≠ some (g,round)) →
    ∀ t < size g, ∀ u < size g, done g t = done g u
  within : ∀ g round, last = some (g,round) →
    ∀ t < size g, round ≤ done g t ∧ done g t ≤ round + 1
  counted : ∀ g round, last = some (g,round) → cell (round % 2) = numDone size done g round
  cleared : ∀ g round, last = some (g,round) → Complete size done g round →
    cell (1 - round % 2) = 0

/-- The group may end a round: if another group was the last, then that group has ended its round,
which had the other parity. -/
def Aligned (size : G → Nat) (done : Rounds G) (last : Option (G × Nat)) (g : G) (round : Nat) :
    Prop :=
  ∀ before ∈ last, before.1 ≠ g →
    Complete size done before.1 before.2 ∧ before.2 % 2 ≠ round % 2

instance [DecidableEq G] (last : Option (G × Nat)) (g : G) (round : Nat) :
    Decidable (Aligned size done last g round) :=
  inferInstanceAs (Decidable (∀ before ∈ last, _ → _ ∧ _))

theorem Counts.congr {cell : Nat → Nat} {last : Option (G × Nat)}
    (counts : Counts size live done cell last)
    (same : ∀ g, live g → ∀ t < size g, done' g t = done g t) :
    Counts size live done' cell last where
  alive := counts.alive
  fresh none := by
    obtain ⟨zero,start⟩ := counts.fresh none
    exact ⟨zero,fun g alive t below => (same g alive t below).trans (start g alive t below)⟩
  level g alive other t below u below' := by
    rw [same g alive t below,same g alive u below']
    exact counts.level g alive other t below u below'
  within g round ended t below := by
    rw [same g (counts.alive g round ended) t below]
    exact counts.within g round ended t below
  counted g round ended := by
    refine (counts.counted g round ended).trans (congrArg Finset.card ?_)
    refine Finset.filter_congr fun t member => ?_
    rw [same g (counts.alive g round ended) t (Finset.mem_range.mp member)]
  cleared g round ended past := by
    exact counts.cleared g round ended
      ((complete_congr (same g (counts.alive g round ended))).mp past)

namespace Counts
variable {cell cell' : Nat → Nat} {last : Option (G × Nat)}
  (counts : Counts size live done cell last) (alive : live g) (inside : t < size g)
  (level : ∀ u < size g, done g t ≤ done g u ∧ done g u ≤ done g t + 1)
  (aligned : Aligned size done last g (done g t))
include counts alive inside level aligned

/-- The cell that a member counts in holds the members of its group before it. -/
theorem cell_eq : cell (done g t % 2) = numDone size done g (done g t) := by
  have none (same : ∀ u < size g, done g u = done g t) : numDone size done g (done g t) = 0 := by
    refine Finset.card_eq_zero.mpr (Finset.filter_eq_empty_iff.mpr fun u below => ?_)
    rw [same u (Finset.mem_range.mp below)]
    exact Nat.lt_irrefl _
  cases ended : last with
  | none =>
    obtain ⟨zero,start⟩ := counts.fresh ended
    rw [zero,none fun u below => by rw [start g alive u below,start g alive t inside]]
  | some before =>
    obtain ⟨i,round⟩ := before
    by_cases other : i = g
    · subst other
      obtain ⟨low,high⟩ := counts.within i round ended t inside
      rcases Nat.eq_or_lt_of_le low with same | past
      · rw [← same]
        exact counts.counted i round ended
      · -- The round is over, and the other cell was cleared.
        have next : done i t = round + 1 := Nat.le_antisymm high past
        have all : Complete size done i round := fun u below =>
          past.trans_le (level u below).1
        rw [none fun u below => Nat.le_antisymm
          ((counts.within i round ended u below).2.trans_eq next.symm) (level u below).1]
        rw [show done i t % 2 = 1 - round % 2 by omega]
        exact counts.cleared i round ended all
    · obtain ⟨past,parity⟩ := aligned (i,round) ended other
      have same := counts.level g alive fun n same =>
        other (Prod.mk.inj (Option.some.inj (ended.symm.trans same))).1
      rw [none fun u below => same u below t inside]
      rw [show done g t % 2 = 1 - round % 2 by omega]
      exact counts.cleared i round ended past

/-- A member ends a round. Its cell is full exactly when the group has ended the round. -/
theorem ends (after : Ends size live done done' g t)
    (bumped : cell' (done g t % 2) = cell (done g t % 2) + 1)
    (resets : cell (done g t % 2) + 1 = size g → cell' (1 - done g t % 2) = 0) :
    Counts size live done' cell' (some (g,done g t)) ∧
      (cell (done g t % 2) + 1 = size g ↔ Complete size done' g (done g t)) := by
  have now := counts.cell_eq alive inside level aligned
  have one := numDone_ends after alive inside
  have full : cell (done g t % 2) + 1 = size g ↔ Complete size done' g (done g t) := by
    rw [complete_iff_numDone,one,now]
  refine ⟨⟨?_,nofun,fun i alive' other u below v below' => ?_,?_,?_,?_⟩,full⟩
  · rintro _ _ ⟨⟩
    exact alive
  · have apart : i ≠ g := fun same => other (done g t) (by rw [same])
    rw [(after i alive' u below).2 fun same => apart same.1,
      (after i alive' v below').2 fun same => apart same.1]
    by_cases was : ∃ round, last = some (i,round)
    · obtain ⟨round,ended⟩ := was
      have past : Complete size done i round := (aligned (i,round) ended apart).1
      have first := counts.within i round ended u below
      have second := counts.within i round ended v below'
      have := past u below
      have := past v below'
      omega
    · exact counts.level i alive' (fun round ended => was ⟨round,ended⟩) u below v below'
  · rintro _ _ ⟨⟩ u below
    have := level u below
    rcases eq_or_ne u t with rfl | other
    · rw [(after g alive u below).1 ⟨rfl,rfl⟩]
      omega
    · rw [(after g alive u below).2 fun same => other same.2]
      exact level u below
  · rintro _ _ ⟨⟩
    rw [bumped,one,now]
  · rintro _ _ ⟨⟩ past
    exact resets (full.mpr past)

end Counts
end CloudSim.ParityCounter
