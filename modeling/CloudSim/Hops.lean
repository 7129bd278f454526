import CloudSim.Post
import CloudSim.Links

/-! What the switches of a tree do to the progress of a slot: a contribution climbs into a
switch, and the last one of a round sends a packet on over each onward hop. -/
namespace CloudSim

namespace Tree
variable (tree : Tree)

def children : Node → List Nat
  | .tor t => tree.under t
  | .core => tree.tors
  | .worker _ => []

def IsStation : Node → Prop
  | .tor t => t ∈ tree.tors
  | .core => tree.flat = false
  | .worker _ => False

def onward : Node → List Link
  | .tor t => if tree.flat then (tree.under t).map .down else [.rise t]
  | .core => tree.tors.map .fall
  | .worker _ => []

variable {tree}

theorem children_distinct (x : Node) : (tree.children x).Nodup := by
  cases x with
  | tor t => exact tree.under_distinct t
  | core => exact tree.torsDistinct
  | worker w => exact List.nodup_nil

theorem children_le (x : Node) : (tree.children x).length ≤ tree.workers.length := by
  cases x with
  | tor t => exact tree.under_length_le t
  | core => exact tree.tors_length_le
  | worker w => exact Nat.zero_le _

theorem children_nonempty (station : tree.IsStation x) :
    0 < (tree.children x).length := by
  cases x with
  | tor t => exact tree.under_nonempty station
  | core =>
    have flat : tree.flat = false := station
    have tall : 1 < tree.tors.length := by simpa [Tree.flat] using flat
    exact Nat.zero_lt_of_lt tall
  | worker w => cases station

theorem onward_distinct (x : Node) : (tree.onward x).Nodup := by
  cases x with
  | tor t =>
    rw [onward]
    split
    · exact (tree.under_distinct t).map fun _ _ same => Link.down.inj same
    · exact List.nodup_singleton _
  | core => exact tree.torsDistinct.map fun _ _ same => Link.fall.inj same
  | worker w => exact List.nodup_nil

theorem onward_valid (station : tree.IsStation x) (member : k ∈ tree.onward x) :
    k.Valid tree := by
  cases x with
  | tor t =>
    rw [onward] at member
    split at member
    · obtain ⟨w,below,rfl⟩ := List.mem_map.mp member
      exact (tree.mem_under.mp below).1
    · rename_i tall
      rw [List.mem_singleton.mp member]
      exact ⟨station,Bool.eq_false_iff.mpr tall⟩
  | core =>
    obtain ⟨t,inside,rfl⟩ := List.mem_map.mp member
    exact ⟨inside,station⟩
  | worker w => cases station

/-- The switches that worker `w` cleans at the end of its allreduces. -/
inductive Cleans (tree : Tree) (w : Nat) : Node → Prop where
  | tor : w ∈ tree.workers → w = tree.cleaner (tree.torOf w) → Cleans tree w (.tor (tree.torOf w))
  | core : w = tree.cleaner (tree.torOf w) → tree.flat = false →
    tree.torOf w = tree.upperCleaner → Cleans tree w .core

theorem Cleans.station (cleans : tree.Cleans w x) : tree.IsStation x := by
  cases cleans with
  | tor worker _ => exact tree.torOf_mem worker
  | core _ tall _ => exact tall

end Tree

theorem Fabric.cleanUp_cases {tree : Tree} (cfg : Config) (f : Fabric) {l : Layer}
    (wired : Wired tree l.1 f.net) (worker : w ∈ tree.workers) (turn : Nat) :
    ((∀ x, ¬tree.Cleans w x) ∧ f.cleanUp cfg (l.ref w) turn = f) ∨
    (tree.Cleans w (.tor (tree.torOf w)) ∧ ¬tree.Cleans w .core ∧
      f.cleanUp cfg (l.ref w) turn = f.clean cfg (.tor (tree.torOf w)) l turn) ∨
    (tree.Cleans w (.tor (tree.torOf w)) ∧ tree.Cleans w .core ∧
      f.cleanUp cfg (l.ref w) turn =
        (f.clean cfg (.tor (tree.torOf w)) l turn).clean cfg .core l turn) := by
  have tor : (f.net.worker w).tor = tree.torOf w := wired.workerTor w worker
  have inside := tree.torOf_mem worker
  have lower := wired.workerCleans w worker
  have upper : ((f.net.tor (tree.torOf w)).cleanUpperLevelSwitchForJob.get l.1 &&
      (f.net.tor (tree.torOf w)).upperLevelSwitch.isSome) =
      (!tree.flat && decide (tree.torOf w = tree.upperCleaner)) := by
    rw [wired.torCleans _ inside,wired.torUpper _ inside,Bool.and_true]
  by_cases first : w = tree.cleaner (tree.torOf w)
  · have cleans : (f.net.worker w).cleanToRForJob.get l.1 = true :=
      lower.trans (decide_eq_true first)
    by_cases top : tree.flat = false ∧ tree.torOf w = tree.upperCleaner
    · refine Or.inr (Or.inr ⟨.tor worker first,.core first top.1 top.2,?_⟩)
      have also : ((f.net.tor (tree.torOf w)).cleanUpperLevelSwitchForJob.get l.1 &&
          (f.net.tor (tree.torOf w)).upperLevelSwitch.isSome) = true := by
        rw [upper,top.1,decide_eq_true top.2]; rfl
      rw [← tor] at also ⊢
      exact (if_pos cleans).trans (if_pos also)
    · refine Or.inr (Or.inl ⟨.tor worker first,fun core => ?_,?_⟩)
      · cases core with
        | core _ tall same => exact top ⟨tall,same⟩
      · have alone : ¬((f.net.tor (tree.torOf w)).cleanUpperLevelSwitchForJob.get l.1 &&
            (f.net.tor (tree.torOf w)).upperLevelSwitch.isSome) = true := by
          rw [upper,Bool.and_eq_true,Bool.not_eq_true',decide_eq_true_iff]
          exact top
        rw [← tor] at alone ⊢
        exact (if_pos cleans).trans (if_neg alone)
  · refine Or.inl ⟨fun x cleans => ?_,if_neg fun cleans => first ?_⟩
    · cases cleans <;> exact absurd ‹_› first
    · exact of_decide_eq_true (lower.symm.trans cleans)

/-- The hop `k` brings contributions of the child `c` to the switch `x`. -/
inductive Link.Climbs (tree : Tree) : Link → Node → Nat → Prop where
  | up : w ∈ tree.workers → Climbs tree (.up w) (.tor (tree.torOf w)) w
  | rise : t ∈ tree.tors → tree.flat = false → Climbs tree (.rise t) .core t

namespace Link.Climbs
variable {tree : Tree} {k : Link} {x : Node} {c : Nat}

theorem station (climbs : k.Climbs tree x c) : tree.IsStation x := by
  cases climbs with
  | up worker => exact tree.torOf_mem worker
  | rise _ tall => exact tall

theorem child (climbs : k.Climbs tree x c) : c ∈ tree.children x := by
  cases climbs with
  | up worker => exact tree.mem_under.mpr ⟨worker,rfl⟩
  | rise inside _ => exact inside

theorem dest (climbs : k.Climbs tree x c) : k.dest tree = x := by cases climbs <;> rfl

theorem upward (climbs : k.Climbs tree x c) : k.upward = true := by cases climbs <;> rfl

theorem source (climbs : k.Climbs tree x c) : k.source tree coreId = c := by cases climbs <;> rfl

end Link.Climbs

namespace Ladder
variable (l : Ladder Nat Nat)

def cnt : Node → Nat → Nat
  | .core => l.joined
  | .tor _ | .worker _ => l.counted

def own : Node → Nat
  | .tor t => l.merged t
  | .core => l.reduced
  | .worker _ => 0

def climb (x : Node) (c : Nat) : Ladder Nat Nat :=
  match x with
  | .core => l.join c
  | .tor _ | .worker _ => l.count c

/-- A switch closes a round. The only ToR of a flat tree also stands for the root. -/
def close (tree : Tree) (x : Node) : Ladder Nat Nat :=
  match x with
  | .core => l.reduce
  | .tor t => if tree.flat then (((l.merge t).join t).reduce).relay t else l.merge t
  | .worker _ => l

variable {l} {tree : Tree} {x : Node} {k : Link} {c : Nat}

section climb
variable (climbs : k.Climbs tree x c)
include climbs

theorem low_of_climbs : k.low l = l.cnt x c := by cases climbs <;> rfl

theorem climb_cnt : (l.climb x c).cnt x = Function.update (l.cnt x) c (l.cnt x c + 1) := by
  cases climbs <;> rfl

theorem climb_own (y : Node) : (l.climb x c).own y = l.own y := by
  cases climbs <;> cases y <;> rfl

theorem climb_other (other : y ≠ x) (station : tree.IsStation y) :
    ∀ d ∈ tree.children y, (l.climb x c).cnt y d = l.cnt y d := by
  intro d member
  cases climbs with
  | up worker =>
    cases y with
    | tor t =>
      have elsewhere : d ≠ c := by
        rintro rfl
        exact other (congrArg Node.tor (tree.mem_under.mp member).2.symm)
      exact Function.update_of_ne elsewhere _ _
    | core => rfl
    | worker w => cases station
  | rise inside tall =>
    cases y with
    | tor t => rfl
    | core => exact absurd rfl other
    | worker w => cases station

theorem climb_low (j : Link) :
    j.low (l.climb x c) = if j = k then k.low l + 1 else j.low l := by
  cases climbs with
  | up worker =>
    cases j with
    | up w => simp [Link.low,climb,count,Function.update_apply]
    | rise t => rfl
    | fall t => rfl
    | down w => rfl
  | rise inside tall =>
    cases j with
    | up w => rfl
    | rise t => simp [Link.low,climb,join,Function.update_apply]
    | fall t => rfl
    | down w => rfl

theorem climb_high (j : Link) : j.high tree (l.climb x c) = j.high tree l := by
  cases climbs <;> cases j <;> rfl

theorem climb_sent : (l.climb x c).sent = l.sent ∧ (l.climb x c).got = l.got := by
  cases climbs <;> exact ⟨rfl,rfl⟩

theorem climb_level : (l.climb x c).merged = l.merged ∧ (l.climb x c).relayed = l.relayed := by
  cases climbs <;> exact ⟨rfl,rfl⟩

/-- The contribution on the hop is for the round that the switch has open. -/
theorem level_of_pending (ordered : l.Ordered tree.shape) (pending : k.low l < k.high tree l) :
    l.cnt x c = l.own x := by
  cases climbs with
  | up worker =>
    have window := ordered.window c worker
    have got := ordered.got_le c worker
    have node := tree.shape.maps c worker
    have relayed := ordered.relayed_le _ node
    have reduced := ordered.reduced_le _ node
    have joined := ordered.joined_le _ node
    have merged := ordered.merged_le c worker
    change l.counted c < l.sent c at pending
    change l.counted c = l.merged (tree.shape.above c)
    omega
  | rise inside tall =>
    have merged := ordered.merged_near inside
    have relayed := ordered.relayed_le c inside
    have reduced := ordered.reduced_le c inside
    change l.joined c < l.merged c at pending
    change l.joined c = l.reduced
    omega

theorem climb_ordered (ordered : l.Ordered tree.shape) (pending : k.low l < k.high tree l) :
    (l.climb x c).Ordered tree.shape := by
  cases climbs with
  | up worker => exact ordered.count pending
  | rise inside tall => exact ordered.join pending

end climb

theorem cnt_near (ordered : l.Ordered tree.shape) (station : tree.IsStation x) :
    ∀ d ∈ tree.children x, l.cnt x d ≤ l.own x + 1 := by
  intro d member
  cases x with
  | tor t =>
    obtain ⟨worker,rfl⟩ := tree.mem_under.mp member
    exact ordered.counted_near worker
  | core => exact ordered.joined_near member
  | worker w => cases station

theorem own_le_cnt (ordered : l.Ordered tree.shape) (station : tree.IsStation x) :
    ∀ d ∈ tree.children x, l.own x ≤ l.cnt x d := by
  intro d member
  cases x with
  | tor t =>
    obtain ⟨worker,rfl⟩ := tree.mem_under.mp member
    exact ordered.merged_le d worker
  | core => exact ordered.reduced_le d member
  | worker w => cases station

section close
variable (station : tree.IsStation x)
include station

theorem close_cnt : (l.close tree x).cnt x = l.cnt x := by
  cases x with
  | tor t => rw [close]; split <;> rfl
  | core => rfl
  | worker w => cases station

theorem close_own : (l.close tree x).own x = l.own x + 1 := by
  cases x with
  | tor t => rw [close]; split <;> exact Function.update_self _ _ _
  | core => rfl
  | worker w => cases station

theorem close_other (other : y ≠ x) (also : tree.IsStation y) :
    (l.close tree x).cnt y = l.cnt y ∧ (l.close tree x).own y = l.own y := by
  cases x with
  | tor t =>
    rw [close]
    cases y with
    | tor s =>
      have elsewhere : s ≠ t := fun same => other (congrArg Node.tor same)
      split
      · rename_i flat
        exact absurd (tree.only_tor flat station also) elsewhere
      · exact ⟨rfl,Function.update_of_ne elsewhere _ _⟩
    | core =>
      split
      · rename_i flat
        exact absurd flat (Bool.eq_false_iff.mp also)
      · exact ⟨rfl,rfl⟩
    | worker w => cases also
  | core =>
    cases y with
    | tor s => exact ⟨rfl,rfl⟩
    | core => exact absurd rfl other
    | worker w => cases also
  | worker w => cases station

theorem close_low {j : Link} (valid : j.Valid tree) : j.low (l.close tree x) = j.low l := by
  cases x with
  | tor t =>
    rw [close]
    split
    · rename_i flat
      cases j with
      | up w => rfl
      | rise s => exact absurd flat (Bool.eq_false_iff.mp valid.2)
      | fall s => exact absurd flat (Bool.eq_false_iff.mp valid.2)
      | down w => rfl
    · cases j <;> rfl
  | core => cases j <;> rfl
  | worker w => cases station

theorem close_high {j : Link} (valid : j.Valid tree) :
    j.high tree (l.close tree x) = if j ∈ tree.onward x then j.high tree l + 1
      else j.high tree l := by
  cases x with
  | tor t =>
    rw [close,Tree.onward]
    split
    · rename_i flat
      cases j with
      | up w => simp [Link.high,merge,join,reduce,relay]
      | rise s => exact absurd flat (Bool.eq_false_iff.mp valid.2)
      | fall s => exact absurd flat (Bool.eq_false_iff.mp valid.2)
      | down w =>
        have same := tree.only_tor flat station (tree.torOf_mem valid)
        have below : w ∈ tree.under t := tree.mem_under.mpr ⟨valid,same⟩
        rw [if_pos (List.mem_map_of_mem below)]
        simp [Link.high,merge,join,reduce,relay,same]
    · cases j with
      | up w => simp [Link.high,merge]
      | rise s =>
        rcases eq_or_ne s t with rfl | other
        · simp [Link.high,merge]
        · simp [Link.high,merge,other]
      | fall s => simp [Link.high,merge]
      | down w => simp [Link.high,merge]
  | core =>
    cases j with
    | up w => simp [Link.high,reduce,Tree.onward,close]
    | rise s => simp [Link.high,reduce,Tree.onward,close]
    | fall s => simp [Link.high,reduce,Tree.onward,close,valid.1]
    | down w => simp [Link.high,reduce,Tree.onward,close]
  | worker w => cases station

theorem close_sent : (l.close tree x).sent = l.sent ∧ (l.close tree x).got = l.got := by
  cases x with
  | tor t => rw [close]; split <;> exact ⟨rfl,rfl⟩
  | core => exact ⟨rfl,rfl⟩
  | worker w => cases station

variable (complete : ∀ d ∈ tree.children x, l.own x < l.cnt x d)
include complete

theorem close_ordered (ordered : l.Ordered tree.shape) :
    (l.close tree x).Ordered tree.shape := by
  cases x with
  | tor t =>
    have merged : (l.merge t).Ordered tree.shape :=
      ordered.merge fun w worker above => complete w (tree.mem_under.mpr ⟨worker,above⟩)
    rw [close]
    split
    · rename_i flat
      have joined : ((l.merge t).join t).Ordered tree.shape := by
        refine merged.join ?_
        have below := ordered.joined_le t station
        simpa [merge] using Nat.lt_succ_of_le below
      refine (joined.reduce fun s inside => ?_).relay ?_
      · obtain rfl := tree.only_tor flat station inside
        have below := ordered.reduced_le s station
        simpa [merge,join] using Nat.lt_succ_of_le below
      · have below := ordered.relayed_le t station
        simpa [merge,join,reduce] using Nat.lt_succ_of_le below
    · exact merged
  | core => exact ordered.reduce complete
  | worker w => cases station

theorem onward_empty (ordered : l.Ordered tree.shape) :
    ∀ k ∈ tree.onward x, k.low l = l.own x ∧ k.high tree l = l.own x := by
  intro k member
  cases x with
  | tor t =>
    have counted (w : Nat) (below : w ∈ tree.under t) : l.merged t < l.counted w :=
      complete w below
    obtain ⟨v,worker,rfl⟩ := (tree.involved t).mp station
    have node : tree.torOf v ∈ tree.shape.inner := station
    have bound := ordered.counted_near (show v ∈ tree.shape.leaves from worker)
    have joined := ordered.joined_le _ node
    have reduced := ordered.reduced_le _ node
    have relayed := ordered.relayed_le _ node
    have reached (w : Nat) (below : w ∈ tree.under (tree.torOf v)) :
        l.merged (tree.torOf v) ≤ l.got w ∧ l.got w ≤ l.relayed (tree.torOf v) := by
      obtain ⟨also,above⟩ := tree.mem_under.mp below
      have sent := ordered.counted_le w also
      have window := ordered.window w also
      have got := ordered.got_le w also
      have ahead := counted w below
      rw [show tree.shape.above w = tree.torOf v from above] at got
      omega
    have here := reached v (tree.mem_under.mpr ⟨worker,rfl⟩)
    rw [Tree.onward] at member
    split at member
    · obtain ⟨w,below,rfl⟩ := List.mem_map.mp member
      have there := reached w below
      have above := (tree.mem_under.mp below).2
      simp only [Link.low,Link.high,own,above]
      omega
    · rw [List.mem_singleton.mp member]
      simp only [Link.low,Link.high,own,and_true]
      omega
  | core =>
    obtain ⟨t,inside,rfl⟩ := List.mem_map.mp member
    have ahead : l.reduced < l.joined t := complete t inside
    have joined := ordered.joined_le t inside
    have merged := ordered.merged_near inside
    have relayed := ordered.relayed_le t inside
    simp only [Link.low,Link.high,own,and_true]
    omega
  | worker w => cases station

end close

theorem close_level (station : tree.IsStation x) (flat : tree.flat = true)
    (level : ∀ t ∈ tree.tors, l.merged t ≤ l.relayed t) :
    ∀ t ∈ tree.tors, (l.close tree x).merged t ≤ (l.close tree x).relayed t := by
  intro s inside
  cases x with
  | tor t =>
    obtain rfl := tree.only_tor flat station inside
    have before := level s inside
    rw [close,if_pos flat]
    simpa [merge,join,reduce,relay] using before
  | core => exact absurd flat (Bool.eq_false_iff.mp station)
  | worker w => cases station

section relay
variable (t : Nat)

theorem relay_cnt (y : Node) : (l.relay t).cnt y = l.cnt y ∧ (l.relay t).own y = l.own y := by
  cases y <;> exact ⟨rfl,rfl⟩

theorem relay_low (j : Link) :
    j.low (l.relay t) = if j = .fall t then l.relayed t + 1 else j.low l := by
  cases j with
  | up w => rfl
  | rise s => rfl
  | fall s => simp [Link.low,relay,Function.update_apply]
  | down w => rfl

theorem relay_high {j : Link} (valid : j.Valid tree) : j.high tree (l.relay t) =
    if j ∈ (tree.under t).map Link.down then j.high tree l + 1 else j.high tree l := by
  cases j with
  | up w => simp [Link.high,relay]
  | rise s => simp [Link.high,relay]
  | fall s => simp [Link.high,relay]
  | down w =>
    have below : w ∈ tree.under t ↔ tree.torOf w = t :=
      tree.mem_under.trans (and_iff_right valid)
    rcases eq_or_ne (tree.torOf w) t with same | other
    · simp [Link.high,relay,below,same]
    · simp [Link.high,relay,below,other]

variable {t} (ordered : l.Ordered tree.shape) (inside : t ∈ tree.tors)
  (pending : l.relayed t < l.reduced)
include ordered inside pending

/-- While a result falls to a ToR, the ToR's workers wait and its hops to them are empty. -/
theorem relay_idle (member : w ∈ tree.under t) :
    l.counted w ≤ l.merged t ∧ l.got w = l.relayed t := by
  obtain ⟨worker,rfl⟩ := tree.mem_under.mp member
  have counted := ordered.counted_le w worker
  have window := ordered.window w worker
  have got := ordered.got_le w worker
  have reduced := ordered.reduced_le _ inside
  have joined := ordered.joined_le _ inside
  have merged := ordered.merged_le w worker
  change l.merged (tree.torOf w) ≤ l.counted w at merged
  change l.got w ≤ l.relayed (tree.torOf w) at got
  omega

end relay
end Ladder
end CloudSim
