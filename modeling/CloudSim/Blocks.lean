import Mathlib.Data.List.Basic

/-! Memory as a function of the address, with blocks stored in it and copied within it. -/
namespace CloudSim.Blocks

variable {A : Type} (m : Nat → A)

/-- The block of `count` cells from `start` on. -/
def block (start count : Nat) : List A := (List.range' start count).map m

def store (start : Nat) (content : List A) : Nat → A :=
  fun i => if start ≤ i then (content[i - start]?).getD (m i) else m i

def memcpy (target source count : Nat) : Nat → A := store m target (block m source count)

@[simp] theorem length_block (start count : Nat) : (block m start count).length = count := by
  simp [block]

@[simp] theorem block_zero (start : Nat) : block m start 0 = [] := rfl

theorem block_add (start first more : Nat) :
    block m start (first + more) = block m start first ++ block m (start + first) more := by
  simp only [block,← List.map_append]
  rw [List.range'_append_1]

theorem getElem?_block {i count : Nat} (start : Nat) (inside : i < count) :
    (block m start count)[i]? = some (m (start + i)) := by
  simp [block,inside]

variable {m}

theorem block_congr {n : Nat → A} {start other count : Nat}
    (same : ∀ i < count, m (start + i) = n (other + i)) :
    block m start count = block n other count := by
  refine List.ext_getElem? fun i => ?_
  by_cases inside : i < count
  · rw [getElem?_block m start inside,getElem?_block n other inside,same i inside]
  · rw [List.getElem?_eq_none (by simpa using inside),
      List.getElem?_eq_none (by simpa using inside)]

theorem store_inside {i : Nat} {content : List A} (start : Nat) (inside : i < content.length) :
    store m start content (start + i) = content[i] := by
  simp [store,inside]

@[simp] theorem store_one (start : Nat) (a : A) : store m start [a] start = a := by
  simp [store]

theorem store_below {i start : Nat} (content : List A) (below : i < start) :
    store m start content i = m i := by
  simp only [store,if_neg (show ¬start ≤ i by omega)]

theorem store_above {i start : Nat} {content : List A} (above : start + content.length ≤ i) :
    store m start content i = m i := by
  have outside : content[i - start]? = none := List.getElem?_eq_none (by omega)
  simp [store,outside]

theorem block_store (start : Nat) (content : List A) :
    block (store m start content) start content.length = content := by
  refine List.ext_getElem? fun i => ?_
  by_cases inside : i < content.length
  · rw [getElem?_block _ start inside,store_inside start inside,List.getElem?_eq_getElem inside]
  · rw [List.getElem?_eq_none (by simpa using inside),List.getElem?_eq_none (by omega)]

theorem block_store_below {start count target : Nat} (content : List A)
    (below : start + count ≤ target) :
    block (store m target content) start count = block m start count :=
  block_congr fun _ _ => store_below content (by omega)

theorem block_store_above {start target : Nat} {content : List A} (count : Nat)
    (above : target + content.length ≤ start) :
    block (store m target content) start count = block m start count :=
  block_congr fun _ _ => store_above (by omega)

theorem block_memcpy {target source count offset length : Nat}
    (inside : offset + length ≤ count) :
    block (memcpy m target source count) (target + offset) length =
      block m (source + offset) length := by
  refine block_congr fun i bound => ?_
  have copied : offset + i < (block m source count).length := by simp; omega
  rw [Nat.add_assoc,memcpy,store_inside target copied]
  simp [block,Nat.add_assoc]

theorem block_memcpy_below {start length target : Nat} (source count : Nat)
    (below : start + length ≤ target) :
    block (memcpy m target source count) start length = block m start length :=
  block_store_below _ below

theorem block_memcpy_above {target start count : Nat} (source length : Nat)
    (above : target + count ≤ start) :
    block (memcpy m target source count) start length = block m start length :=
  block_store_above length (by simpa using above)

end CloudSim.Blocks
