import Mathlib.Data.List.Induction

/-! The binary heap behind `std::priority_queue`, as `push_heap` and `pop_heap` keep it in a
vector. `less a b` says that `a` comes after `b`; it may change between two operations, so
these results do not depend on an order of the elements. -/
namespace CloudSim.Heap

def swap (xs : List α) (i j : Nat) : List α :=
  match xs[i]?,xs[j]? with
  | some a,some b => (xs.set i b).set j a
  | _,_ => xs

/-- The element at `hole` rises while it comes before its parent. -/
def siftUp (less : α → α → Bool) : Nat → Nat → List α → List α
  | 0,_,xs => xs
  | fuel + 1,hole,xs =>
    match xs[(hole - 1) / 2]?,xs[hole]? with
    | some parent,some value =>
      if 0 < hole ∧ less parent value then
        siftUp less fuel ((hole - 1) / 2) (swap xs hole ((hole - 1) / 2))
      else xs
    | _,_ => xs

/-- The element at `hole` sinks to a leaf, always below the child that comes first. -/
def sink (less : α → α → Bool) : Nat → Nat → List α → Nat × List α
  | 0,hole,xs => (hole,xs)
  | fuel + 1,hole,xs =>
    match xs[2 * hole + 1]?,xs[2 * hole + 2]? with
    | some left,some right =>
      let child := if less right left then 2 * hole + 1 else 2 * hole + 2
      sink less fuel child (swap xs hole child)
    | some _,none => (2 * hole + 1,swap xs hole (2 * hole + 1))
    | none,_ => (hole,xs)

def top (xs : List α) : Option α := xs.head?

def push (less : α → α → Bool) (x : α) (xs : List α) : List α :=
  siftUp less xs.length xs.length (xs ++ [x])

/-- The last element takes the place of the first, sinks, and rises again. -/
def pop (less : α → α → Bool) (xs : List α) : List α :=
  let rest := (swap xs 0 (xs.length - 1)).dropLast
  let (hole,sunk) := sink less rest.length 0 rest
  siftUp less hole hole sunk

variable (less : α → α → Bool)

theorem swap_perm (xs : List α) (i j : Nat) : (swap xs i j).Perm xs := by
  unfold swap
  split
  · rename_i a b first second
    obtain ⟨inside,rfl⟩ := List.getElem?_eq_some_iff.mp first
    obtain ⟨within,rfl⟩ := List.getElem?_eq_some_iff.mp second
    exact List.set_set_perm inside within
  · exact List.Perm.refl _

theorem siftUp_perm (fuel hole : Nat) (xs : List α) : (siftUp less fuel hole xs).Perm xs := by
  induction fuel generalizing hole xs with
  | zero => exact List.Perm.refl _
  | succ fuel ih =>
    simp only [siftUp]
    split
    · split
      · exact (ih _ _).trans (swap_perm _ _ _)
      · exact List.Perm.refl _
    · exact List.Perm.refl _

theorem sink_perm (fuel hole : Nat) (xs : List α) : (sink less fuel hole xs).2.Perm xs := by
  induction fuel generalizing hole xs with
  | zero => exact List.Perm.refl _
  | succ fuel ih =>
    simp only [sink]
    split
    · exact (ih _ _).trans (swap_perm _ _ _)
    · exact swap_perm _ _ _
    · exact List.Perm.refl _

theorem push_perm (x : α) (xs : List α) : (push less x xs).Perm (x :: xs) :=
  (siftUp_perm less _ _ _).trans List.perm_append_comm

theorem mem_push {x y : α} {xs : List α} : y ∈ push less x xs ↔ y = x ∨ y ∈ xs := by
  rw [(push_perm less x xs).mem_iff,List.mem_cons]

/-- `pop` removes the top and nothing else. -/
theorem pop_perm (x : α) (xs : List α) : (x :: pop less (x :: xs)).Perm (x :: xs) := by
  have removed : (x :: (swap (x :: xs) 0 xs.length).dropLast).Perm (x :: xs) := by
    cases xs using List.reverseRecOn with
    | nil => simp [swap]
    | append_singleton init last =>
      have swapped : swap (x :: (init ++ [last])) 0 (init ++ [last]).length =
          last :: (init ++ [x]) := by
        simp [swap]
      rw [swapped]
      simpa [List.dropLast_cons_of_ne_nil] using
        ((List.perm_append_singleton last init).symm).cons x
  exact (((siftUp_perm less _ _ _).trans (sink_perm less _ _ _)).cons x).trans removed

theorem pop_length {xs : List α} (nonempty : xs ≠ []) :
    (pop less xs).length + 1 = xs.length := by
  cases xs with
  | nil => exact absurd rfl nonempty
  | cons x xs => simpa using (pop_perm less x xs).length_eq

theorem mem_of_mem_pop {y : α} {xs : List α} (member : y ∈ pop less xs) : y ∈ xs := by
  cases xs with
  | nil => simp [pop,swap,sink,siftUp] at member
  | cons x xs => exact (pop_perm less x xs).subset (List.mem_cons_of_mem x member)

end CloudSim.Heap
