import CloudSim.Heap

/-! When a vector is in heap order. `push_heap` and `pop_heap` keep the order, and `pop_heap` does
not need it at the top. -/
namespace CloudSim.Heap

/-- No element comes after a child that is at `c`. -/
def Edge (less : α → α → Bool) (xs : List α) (c : Nat) : Prop :=
  ∀ a b, xs[(c - 1) / 2]? = some a → xs[c]? = some b → less a b = false

/-- No element comes after a child of it, except perhaps the top. -/
def OrderedBelowTop (less : α → α → Bool) (xs : List α) : Prop :=
  ∀ c, 0 < c → (c - 1) / 2 ≠ 0 → Edge less xs c

def Ordered (less : α → α → Bool) (xs : List α) : Prop := ∀ c, 0 < c → Edge less xs c

instance (less : α → α → Bool) (xs : List α) (c : Nat) : Decidable (Edge less xs c) :=
  decidable_of_iff (∀ a ∈ xs[(c - 1) / 2]?,∀ b ∈ xs[c]?,less a b = false)
    ⟨fun holds a b first second => holds a first b second,
      fun edge a first b second => edge a b first second⟩

theorem edge_of_length_le {less : α → α → Bool} {xs : List α} (beyond : xs.length ≤ c) :
    Edge less xs c := by
  intro a b _ second
  rw [List.getElem?_eq_none beyond] at second
  cases second

instance (less : α → α → Bool) (xs : List α) : Decidable (Ordered less xs) :=
  decidable_of_iff (∀ c < xs.length,0 < c → Edge less xs c)
    ⟨fun holds c positive => (Nat.lt_or_ge c xs.length).elim (fun inside => holds c inside positive)
      edge_of_length_le,fun ordered c _ positive => ordered c positive⟩

instance (less : α → α → Bool) (xs : List α) : Decidable (OrderedBelowTop less xs) :=
  decidable_of_iff (∀ c < xs.length,0 < c → (c - 1) / 2 ≠ 0 → Edge less xs c)
    ⟨fun holds c positive apart => (Nat.lt_or_ge c xs.length).elim
      (fun inside => holds c inside positive apart) edge_of_length_le,
      fun below c _ positive apart => below c positive apart⟩

theorem Edge.congr {less less' : α → α → Bool} {xs : List α} (edge : Edge less xs c)
    (same : ∀ a b, xs[(c - 1) / 2]? = some a → xs[c]? = some b → less' a b = less a b) :
    Edge less' xs c :=
  fun a b first second => (same a b first second).trans (edge a b first second)

theorem Ordered.congr {less less' : α → α → Bool} {xs : List α} (ordered : Ordered less xs)
    (same : ∀ a ∈ xs, ∀ b ∈ xs, less' a b = less a b) : Ordered less' xs :=
  fun c positive => (ordered c positive).congr fun a b first second =>
    same a (List.mem_of_getElem? first) b (List.mem_of_getElem? second)

theorem ordered_nil {less : α → α → Bool} : Ordered less [] := by
  intro c _ a b first
  cases first

theorem OrderedBelowTop.congr_tail {less less' : α → α → Bool} {x : α} {xs : List α}
    (below : OrderedBelowTop less (x :: xs)) (same : ∀ a ∈ xs, ∀ b ∈ xs, less' a b = less a b) :
    OrderedBelowTop less' (x :: xs) := by
  refine fun c positive apart => (below c positive apart).congr fun a b first second => ?_
  obtain ⟨p,at'⟩ := Nat.exists_eq_succ_of_ne_zero apart
  obtain ⟨k,rfl⟩ := Nat.exists_eq_succ_of_ne_zero (Nat.ne_of_gt positive)
  rw [at',List.getElem?_cons_succ] at first
  rw [List.getElem?_cons_succ] at second
  exact same a (List.mem_of_getElem? first) b (List.mem_of_getElem? second)

theorem OrderedBelowTop.congr {less less' : α → α → Bool} {xs : List α}
    (below : OrderedBelowTop less xs) (same : ∀ a ∈ xs, ∀ b ∈ xs, less' a b = less a b) :
    OrderedBelowTop less' xs :=
  fun c positive apart => (below c positive apart).congr fun a b first second =>
    same a (List.mem_of_getElem? first) b (List.mem_of_getElem? second)

theorem Ordered.belowTop {less : α → α → Bool} {xs : List α} (ordered : Ordered less xs) :
    OrderedBelowTop less xs := fun c positive _ => ordered c positive

/-- `less` is the strict part of a total preorder. -/
structure Strict (less : α → α → Bool) : Prop where
  asymm : less a b = true → less b a = false
  trans : less a b = false → less b c = false → less a c = false

theorem getElem?_swap {xs : List α} (first : i < xs.length) (second : j < xs.length) (k : Nat) :
    (swap xs i j)[k]? = if k = j then xs[i]? else if k = i then xs[j]? else xs[k]? := by
  rw [swap,List.getElem?_eq_getElem first,List.getElem?_eq_getElem second]
  dsimp only
  rw [List.getElem?_set,List.length_set]
  split
  · rename_i same
    subst same
    simp
  · rename_i other
    rw [if_neg (Ne.symm other),List.getElem?_set]
    split
    · rename_i same
      subst same
      simp
    · rename_i apart
      rw [if_neg (Ne.symm apart)]

theorem length_swap (xs : List α) (i j : Nat) : (swap xs i j).length = xs.length :=
  (swap_perm xs i j).length_eq

variable {less : α → α → Bool} {xs : List α} {hole : Nat}

/-- Only the element at `hole` may come before its parent. -/
structure Rising (less : α → α → Bool) (hole : Nat) (xs : List α) : Prop where
  edges : ∀ c, 0 < c → c ≠ hole → Edge less xs c
  across : 0 < hole → ∀ c, 0 < c → (c - 1) / 2 = hole → ∀ a b,
    xs[(hole - 1) / 2]? = some a → xs[c]? = some b → less a b = false

theorem siftUp_ordered (strict : Strict less) (fuel : Nat) (enough : hole ≤ fuel)
    (rising : Rising less hole xs) : Ordered less (siftUp less fuel hole xs) := by
  induction fuel generalizing hole xs with
  | zero =>
    intro c positive
    exact rising.edges c positive (by omega)
  | succ fuel ih =>
    have done (stays : ∀ a b, 0 < hole → xs[(hole - 1) / 2]? = some a → xs[hole]? = some b →
        less a b = false) : Ordered less xs := by
      intro c positive
      by_cases here : c = hole
      · subst here
        exact fun a b => stays a b positive
      · exact rising.edges c positive here
    simp only [siftUp]
    split
    · rename_i parent value up at'
      split
      · rename_i may
        obtain ⟨positive,before⟩ := may
        have value_le := strict.asymm before
        have inside := (List.getElem?_eq_some_iff.mp at').1
        have above := (List.getElem?_eq_some_iff.mp up).1
        have get := getElem?_swap inside above
        refine ih (by omega) ⟨fun c some other a b => ?_,fun some c child under a b => ?_⟩
        · rw [get,get,if_neg other]
          by_cases here : c = hole
          · subst here
            rw [if_pos rfl,if_pos rfl,at',up]
            rintro ⟨⟩ ⟨⟩
            exact value_le
          · rw [if_neg here]
            by_cases side : (c - 1) / 2 = (hole - 1) / 2
            · rw [if_pos side,at']
              rintro ⟨⟩ child
              exact strict.trans value_le
                (rising.edges c some here parent b (by rw [side]; exact up) child)
            · rw [if_neg side]
              by_cases below : (c - 1) / 2 = hole
              · rw [if_pos below,up]
                rintro ⟨⟩ child
                exact rising.across positive c some below parent b up child
              · rw [if_neg below]
                exact rising.edges c some here a b
        · rw [get,get,if_neg (by omega),if_neg (by omega),if_neg (by omega)]
          intro grand
          have first := rising.edges ((hole - 1) / 2) some (by omega) a parent grand up
          split
          · rw [up]
            rintro ⟨⟩
            exact first
          · rename_i other
            intro got
            exact strict.trans first
              (rising.edges c child (by omega) parent b (by rw [under]; exact up) got)
      · rename_i stays
        refine done fun a b positive first second => ?_
        cases up.symm.trans first
        cases at'.symm.trans second
        by_contra before
        exact stays ⟨positive,by simpa using before⟩
    · rename_i none
      exact done fun a b _ first second => absurd second (none a b first)

/-- The element at `hole` may come before its parent and after its children. -/
structure Sinking (less : α → α → Bool) (hole : Nat) (xs : List α) : Prop where
  edges : ∀ c, 0 < c → c ≠ hole → (c - 1) / 2 ≠ hole → Edge less xs c
  across : 0 < hole → ∀ c, 0 < c → (c - 1) / 2 = hole → ∀ a b,
    xs[(hole - 1) / 2]? = some a → xs[c]? = some b → less a b = false

theorem Sinking.swap (sinking : Sinking less hole xs) {child : Nat} {first : α}
    (positive : 0 < child) (under : (child - 1) / 2 = hole) (at' : xs[child]? = some first)
    (least : ∀ c, 0 < c → (c - 1) / 2 = hole → c ≠ child → ∀ b, xs[c]? = some b →
      less first b = false) : Sinking less child (Heap.swap xs hole child) := by
  have inside := (List.getElem?_eq_some_iff.mp at').1
  have get := getElem?_swap (i := hole) (by omega) inside
  refine ⟨fun c some other apart a b => ?_,fun some c below next a b => ?_⟩
  · rw [get,get,if_neg apart,if_neg other]
    by_cases here : c = hole
    · subst here
      rw [if_neg (by omega),if_pos rfl,at']
      rintro parent ⟨⟩
      exact sinking.across (by omega) child positive under a first parent at'
    · rw [if_neg here]
      by_cases side : (c - 1) / 2 = hole
      · rw [if_pos side,at']
        rintro ⟨⟩ got
        exact least c some side other b got
      · rw [if_neg side]
        exact sinking.edges c some here side a b
  · rw [get,get,under,if_neg (by omega),if_pos rfl,if_neg (by omega),if_neg (by omega),at']
    rintro ⟨⟩ got
    exact sinking.edges c below (by omega) (by omega) first b (by rw [next]; exact at') got

theorem Sinking.leaf (sinking : Sinking less hole xs) (none : xs.length ≤ 2 * hole + 1) :
    Rising less hole xs := by
  refine ⟨fun c positive other a b first second => ?_,fun _ c _ under a b _ second => ?_⟩
  · have inside := (List.getElem?_eq_some_iff.mp second).1
    exact sinking.edges c positive other (by omega) a b first second
  · have inside := (List.getElem?_eq_some_iff.mp second).1
    omega

theorem sink_rising (strict : Strict less) (fuel : Nat) (enough : xs.length ≤ fuel + hole)
    (sinking : Sinking less hole xs) :
    Rising less (sink less fuel hole xs).1 (sink less fuel hole xs).2 := by
  induction fuel generalizing hole xs with
  | zero => exact sinking.leaf (by omega)
  | succ fuel ih =>
    simp only [sink]
    split
    · rename_i left right atLeft atRight
      have next (child : Nat) (deeper : 2 * hole + 1 ≤ child) :
          (Heap.swap xs hole child).length ≤ fuel + child := by
        rw [length_swap]
        omega
      split
      · rename_i before
        refine ih (next _ (by omega)) (sinking.swap (by omega) (by omega) atLeft ?_)
        intro c positive under other b got
        obtain rfl : c = 2 * hole + 2 := by omega
        cases atRight.symm.trans got
        exact strict.asymm before
      · rename_i after
        refine ih (next _ (by omega)) (sinking.swap (by omega) (by omega) atRight ?_)
        intro c positive under other b got
        obtain rfl : c = 2 * hole + 1 := by omega
        cases atLeft.symm.trans got
        exact Bool.eq_false_iff.mpr after
    · rename_i left atLeft none
      have short := List.getElem?_eq_none_iff.mp none
      refine (sinking.swap (by omega) (by omega) atLeft ?_).leaf ?_
      · intro c positive under other b got
        have inside := (List.getElem?_eq_some_iff.mp got).1
        omega
      · rw [length_swap]
        omega
    · rename_i none
      exact sinking.leaf (List.getElem?_eq_none_iff.mp none)

/-- `pop` needs no order at the top, and leaves a heap. -/
theorem pop_ordered (strict : Strict less) (below : OrderedBelowTop less xs) :
    Ordered less (pop less xs) := by
  rcases xs with _ | ⟨x,rest⟩
  · intro c _ a b first
    simp [pop,Heap.swap,sink,siftUp] at first
  have get := @getElem?_swap α 0 rest.length (x :: rest) (by simp) (by simp)
  have same (c : Nat) (positive : 0 < c) (a : α)
      (got : (Heap.swap (x :: rest) 0 rest.length).dropLast[c]? = some a) :
      (x :: rest)[c]? = some a := by
    have inside := (List.getElem?_eq_some_iff.mp got).1
    rw [List.length_dropLast,length_swap,List.length_cons] at inside
    rw [List.getElem?_dropLast,if_pos (by rw [length_swap,List.length_cons]; omega),get,
      if_neg (by omega),if_neg (by omega)] at got
    exact got
  have sinking : Sinking less 0 (Heap.swap (x :: rest) 0 rest.length).dropLast := by
    refine ⟨fun c positive _ apart a b first second => ?_,fun positive => absurd positive
      (Nat.lt_irrefl 0)⟩
    exact below c positive apart a b (same _ (by omega) a first) (same c positive b second)
  have risen := sink_rising strict _ (Nat.le_refl _) sinking
  exact siftUp_ordered strict _ (Nat.le_refl _) risen

theorem push_ordered (strict : Strict less) (ordered : Ordered less xs) (x : α) :
    Ordered less (push less x xs) := by
  refine siftUp_ordered strict _ (Nat.le_refl _) ⟨fun c positive other a b first second => ?_,
    fun _ c _ under a b _ second => ?_⟩
  · have inside := (List.getElem?_eq_some_iff.mp second).1
    rw [List.length_append,List.length_singleton] at inside
    rw [List.getElem?_append_left (by omega)] at first second
    exact ordered c positive a b first second
  · have inside := (List.getElem?_eq_some_iff.mp second).1
    rw [List.length_append,List.length_singleton] at inside
    omega

theorem Ordered.top_le (strict : Strict less) (ordered : Ordered less xs)
    (top : Heap.top xs = some x) (member : y ∈ xs) : less x y = false := by
  obtain ⟨i,inside,rfl⟩ := List.mem_iff_getElem.mp member
  induction i using Nat.strongRecOn with
  | ind i ih =>
    rcases Nat.eq_zero_or_pos i with rfl | positive
    · rw [Heap.top,List.head?_eq_getElem?,List.getElem?_eq_getElem inside] at top
      cases top
      by_contra before
      exact before (strict.asymm (by simpa using before))
    · have above : (i - 1) / 2 < xs.length := by omega
      exact strict.trans (ih _ (by omega) above (List.getElem_mem above))
        (ordered i positive _ _ (List.getElem?_eq_getElem above) (List.getElem?_eq_getElem inside))

end CloudSim.Heap
