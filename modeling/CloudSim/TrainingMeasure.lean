import CloudSim.Attendance
import CloudSim.Depth
import CloudSim.Descent
import Mathlib.Algebra.Order.BigOperators.Group.List

/-! What is left to do in runs without a collective scheduler: the moves of `execute_job`, the
halves of the calls of `allreduce`, and the hops of the packets under way. Every step but a
placement lowers it. -/
namespace CloudSim
namespace Training
namespace Position
variable {n m iter t : Nat}

/-- The moves after iteration `iter` of `n` over `m` tensors. -/
def after (n m iter : Nat) : Nat := 1 + 2 * m + (n - 1 - iter) * (3 * m)

/-- The moves that are left. -/
def left (n m : Nat) : Position → Nat
  | forward iter t => after n m iter + m + 2 * (m - t)
  | computing iter t => after n m iter + m + 2 * (m - t) - 1
  | backward iter t => after n m iter + t + 1
  | closing t => 1 + 2 * (m - t)
  | settling t => 2 * (m - t)
  | leaving => 1
  | gone => 0

end Position
end Training

/-- The halves of a call that are left. -/
def Suspension.left : Suspension → Nat
  | first => 2
  | second _ => 1
  | ended => 0

namespace Training

section measure
variable (d : Plan) (s : Training)

def jobLeft (w j : Nat) : Nat :=
  match s.position (w,j) with
  | none => Position.after (d.nIter j) (d.modelSize j) 0 + 3 * d.modelSize j + 1
  | some p => p.left (d.nIter j) (d.modelSize j)

/-- Every iteration calls `allreduce` once for every tensor. -/
def callsLeft (r : TensorRef) : Nat := 3 * (d.nIter r.job - s.called r) + (s.lastCall r).left

def toil (w j : Nat) : Nat :=
  s.jobLeft d w j + ((List.range (d.modelSize j)).map fun t => s.callsLeft d ⟨w,j,t⟩).sum

def work : Nat := (s.jobs.map fun j => ((d.tree j).workers.map fun w => s.toil d w j).sum).sum

def Lower : Nat × Multiset Nat → Nat × Multiset Nat → Prop :=
  Prod.Lex (· < ·) Multiset.IsDershowitzMannaLT

theorem lower_wf : WellFounded Lower :=
  WellFounded.prod_lex Nat.lt_wfRel.wf Multiset.wellFounded_isDershowitzMannaLT

end measure

variable {d : Plan} {s s' : Training} {w j t k : Nat} {r : TensorRef} {lad : Ladders}
  {exact : Prop}

section steps
variable (coupled : Coupled d exact lad s) (counts : Counts d s)
include coupled

end steps

end Training
end CloudSim
