import CloudSim.LinkSharing
import CloudSim.Sincronia
import Mathlib.Algebra.BigOperators.Group.List.Basic

/-! The rounds in which the loop of `Sincronia` serves the order that `bssi` returned. -/
namespace CloudSim.Sincronia

def Label.Waits : Label → Prop
  | .resume _ _ => False
  | _ => True

section round
variable {cfg : Config} {topo : Topology} {work : Workload} {s t : Sincronia}

end round

/-- What the rounds so far have done with the order: the keys they served, each once, in rounds of
which each begins with the first key that was left and serves no two jobs that share a link. -/
structure Orderly (topo : Topology) (wids : Nat → List Nat) (result rest : List Nat)
    (batches : List (List Nat)) : Prop where
  once : batches.flatten.Nodup
  served : batches.flatten ⊆ result
  rest : rest = result.filter fun key => key ∉ batches.flatten
  first : ∀ earlier batch later, batches = earlier ++ batch :: later →
    ∃ key, batch.head? = some key ∧
      (result.filter fun key => key ∉ earlier.flatten).head? = some key
  apart : ∀ batch ∈ batches, batch.Pairwise fun a b => ¬topo.SharesLink (wids a) (wids b)

namespace Orderly
variable {topo : Topology} {wids : Nat → List Nat} {result rest batch : List Nat}
  {batches : List (List Nat)}

theorem start (topo : Topology) (wids : Nat → List Nat) (result : List Nat) :
    Orderly topo wids result result [] where
  once := List.nodup_nil
  served := by simp
  rest := by simp
  first earlier batch later same := by simp at same
  apart := by simp

/-- Another round. -/
theorem round {front : Nat} {chosen : List Nat}
    (orderly : Orderly topo wids result (front :: rest) batches)
    (distinct : (front :: rest).Nodup) (sublist : chosen.Sublist rest)
    (apart : (front :: chosen).Pairwise fun a b => ¬topo.SharesLink (wids a) (wids b)) :
    Orderly topo wids result (rest.filter fun key => key ∉ front :: chosen)
      (batches ++ [front :: chosen]) := by
  have left (key : Nat) (member : key ∈ front :: chosen) :
      key ∈ result ∧ key ∉ batches.flatten := by
    have inside : key ∈ front :: rest := (sublist.cons_cons front).subset member
    rw [orderly.rest,List.mem_filter,decide_eq_true_eq] at inside
    exact inside
  have flat : (batches ++ [front :: chosen]).flatten = batches.flatten ++ front :: chosen := by simp
  constructor
  case once =>
    rw [flat]
    refine List.nodup_append.mpr ⟨orderly.once,distinct.sublist (sublist.cons_cons front),?_⟩
    exact fun a old b new same => (left b new).2 (same ▸ old)
  case served =>
    rw [flat]
    exact List.append_subset.mpr ⟨orderly.served,fun key member => (left key member).1⟩
  case rest =>
    have same : rest.filter (fun key => key ∉ front :: chosen) =
        (front :: rest).filter fun key => key ∉ front :: chosen := by simp
    rw [same,orderly.rest,List.filter_filter,flat]
    refine List.filter_congr fun key _ => ?_
    rw [← Bool.decide_and,decide_eq_decide,List.mem_append,not_or,and_comm]
  case first =>
    intro earlier middle later same
    rcases List.eq_nil_or_concat later with rfl | ⟨later,last,rfl⟩
    · obtain ⟨rfl,equal⟩ := List.append_inj' same rfl
      obtain rfl := (List.cons.inj equal).1
      exact ⟨front,rfl,by rw [← orderly.rest]; rfl⟩
    · rw [List.concat_eq_append,← List.cons_append,← List.append_assoc] at same
      exact orderly.first earlier middle later (List.append_inj' same rfl).1
  case apart =>
    intro batch member
    rcases List.mem_append.mp member with old | new
    · exact orderly.apart batch old
    · rw [List.mem_singleton.mp new]
      exact apart

theorem length_le (orderly : Orderly topo wids result rest batches) :
    batches.length ≤ result.length := by
  have nonempty : ∀ batch ∈ batches, 1 ≤ batch.length := by
    intro batch member
    obtain ⟨earlier,later,same⟩ := List.append_of_mem member
    obtain ⟨key,head,_⟩ := orderly.first earlier batch later same
    exact List.length_pos_of_ne_nil (by rintro rfl; cases head)
  have counts : batches.length ≤ batches.flatten.length := by
    rw [List.length_flatten]
    simpa using List.length_le_sum_of_one_le (batches.map List.length) (by simpa using nonempty)
  exact counts.trans (orderly.once.subperm orderly.served).length_le

theorem complete (orderly : Orderly topo wids result [] batches) (distinct : result.Nodup) :
    batches.flatten.Perm result := by
  refine (List.perm_ext_iff_of_nodup orderly.once distinct).mpr fun key => ⟨(orderly.served ·),?_⟩
  intro member
  by_contra missing
  have left : key ∈ result.filter fun key => key ∉ batches.flatten :=
    List.mem_filter.mpr ⟨member,by simpa using missing⟩
  rw [← orderly.rest] at left
  cases left

end Orderly

end CloudSim.Sincronia
