import CloudSim.Ledger
import Mathlib.Algebra.Order.Floor.Semiring
import Mathlib.Data.Rat.Floor

/-! `CppProgressBar` in the runs of a trace: the workers of rank 0 count the ends of iterations, and
every `myprintf` draws the bar again. -/
namespace CloudSim

/-- The bar, with exact percentages. -/
structure CppProgressBar where
  progressLoopNumber : Nat
  progressBar : List Char
  percentage : ℚ
  oneHundredth : ℚ
  loopCounter : Nat

namespace CppProgressBar

/-- `init_variable` and `cntSet(0)`. -/
def initVariable (loopNumber : Nat) : CppProgressBar where
  progressLoopNumber := loopNumber
  progressBar := List.replicate 100 '.'
  percentage := 0
  oneHundredth := loopNumber / 100
  loopCounter := 0

def cntIncrement (b : CppProgressBar) : CppProgressBar :=
  { b with loopCounter := u64 (b.loopCounter + 1) }

def percentageNow (b : CppProgressBar) : ℚ := b.loopCounter / b.oneHundredth

/-- Where the loop of `update_variable` writes when it runs up to `n`. -/
def filled (bar : List Char) (n : Nat) : List Nat :=
  (List.range n).filter fun j => bar[j]? ≠ some '='

/-- The bar after `update_variable`, and the indices that it writes. With a loop number of 0 the
quotient is not finite, and its conversion to `size_t` is undefined. -/
def updateVariable (b : CppProgressBar) : Option (CppProgressBar × List Nat) :=
  if b.oneHundredth = 0 then none
  else if b.percentage = b.percentageNow then some (b,[])
  else
    let j := ⌊b.percentageNow⌋₊
    let written := filled b.progressBar j
    let bar := written.foldl (fun bar i => bar.set i '=') b.progressBar
    some ({ b with percentage := b.percentageNow, progressBar := bar.set j '>' },written ++ [j])

/-- The percentage is below 100, or the bar shows it already. -/
def Drawn (b : CppProgressBar) : Prop :=
  b.loopCounter < b.progressLoopNumber ∨ b.percentage = b.percentageNow

instance (b : CppProgressBar) : Decidable b.Drawn := inferInstanceAs (Decidable (_ ∨ _))

/-- The bar is as wide as its loop number says. -/
def Sized (b : CppProgressBar) : Prop := b.oneHundredth = (b.progressLoopNumber : ℚ) / 100

variable {b next : CppProgressBar} {written : List Nat}

theorem updateVariable_fields (result : b.updateVariable = some (next,written)) :
    next.loopCounter = b.loopCounter ∧ next.progressLoopNumber = b.progressLoopNumber ∧
      next.oneHundredth = b.oneHundredth := by
  unfold updateVariable at result
  split at result
  · cases result
  · split at result <;> cases result <;> exact ⟨rfl,rfl,rfl⟩

theorem percentageNow_lt_iff (sized : b.Sized) (positive : 0 < b.progressLoopNumber) :
    b.percentageNow < 100 ↔ b.loopCounter < b.progressLoopNumber := by
  have cast : (0 : ℚ) < b.progressLoopNumber := Nat.cast_pos.mpr positive
  have now : b.percentageNow = (100 * b.loopCounter : ℚ) / b.progressLoopNumber := by
    rw [percentageNow,sized]
    field_simp
  rw [now,div_lt_iff₀ cast,mul_lt_mul_iff_right₀ (by norm_num),Nat.cast_lt]

theorem percentageNow_nonneg (sized : b.Sized) : 0 ≤ b.percentageNow := by
  rw [percentageNow,sized]
  positivity

/-- A drawing stays inside the 100 characters exactly when it is of less than 100 percent or of
nothing new. -/
theorem updateVariable_inside_iff (sized : b.Sized)
    (result : b.updateVariable = some (next,written)) :
    ((∀ i ∈ written, i < 100) ↔ b.Drawn) ∧
      (b.Drawn → b.percentage < 100 → next.percentage < 100) := by
  unfold updateVariable at result
  split at result
  · cases result
  · rename_i nonzero
    have positive : 0 < b.progressLoopNumber := by
      refine Nat.pos_of_ne_zero fun zero => nonzero ?_
      rw [sized,zero]
      norm_num
    split at result
    · rename_i same
      cases result
      exact ⟨⟨fun _ => Or.inr same,fun _ => nofun⟩,fun _ => id⟩
    · rename_i changed
      cases result
      have below := percentageNow_lt_iff sized positive
      have floor : ⌊b.percentageNow⌋₊ < 100 ↔ b.percentageNow < 100 :=
        Nat.floor_lt (percentageNow_nonneg sized)
      rw [Drawn,or_iff_left changed,← below]
      refine ⟨⟨fun inside => floor.mp (inside _ (by simp)),fun low i member => ?_⟩,fun low _ => low⟩
      rcases List.mem_append.mp member with loop | ends
      · exact (List.mem_range.mp (List.mem_filter.mp loop).1).trans (floor.mpr low)
      · exact List.mem_singleton.mp ends ▸ floor.mpr low

end CppProgressBar
/-- The jobs that `main` submits. `order j` lists the workers of job `j` by rank. -/
structure Trace extends Plan where
  submitted : List Nat
  distinct : submitted.Nodup
  order : Nat → List Nat
  ranked : ∀ j, (order j).Perm (tree j).workers

namespace Trace
variable (trace : Trace)

/-- The sum that `main` computes in an `unsigned`. -/
def collectives : Nat :=
  trace.submitted.foldl
    (fun cnt j => u32 (u64 (cnt + u64 (trace.nIter j * trace.modelSize j)))) 0

def total : Nat := (trace.submitted.map fun j => trace.nIter j * trace.modelSize j).sum

def rankForJob (w j : Nat) : Nat := (trace.order j).idxOf w

def lead (j : Nat) : Nat := (trace.order j).headD 0

def triples : List (Nat × Nat × Nat) :=
  trace.submitted.flatMap fun j => (List.range (trace.nIter j)).flatMap fun i =>
    (List.range (trace.modelSize j)).map fun t => (j,i,t)

/-- The iteration is over for the tensor on the worker of rank 0. -/
def finished (s : Training) : Nat × Nat × Nat → Bool
  | (j,i,t) => decide (i < s.reduced trace.toPlan ⟨trace.lead j,j,t⟩)

def numFinished (s : Training) : Nat := trace.triples.countP (trace.finished s)

theorem collectives_le : trace.collectives ≤ trace.total := by
  have sums (jobs : List Nat) (cnt : Nat) :
      jobs.foldl (fun cnt j => u32 (u64 (cnt + u64 (trace.nIter j * trace.modelSize j)))) cnt ≤
        cnt + (jobs.map fun j => trace.nIter j * trace.modelSize j).sum := by
    induction jobs generalizing cnt with
    | nil => exact Nat.le_refl cnt
    | cons j rest ih =>
      rw [List.foldl_cons,List.map_cons,List.sum_cons,← Nat.add_assoc]
      refine (ih _).trans (Nat.add_le_add_right ?_ _)
      exact ((Nat.mod_le _ _).trans (Nat.mod_le _ _)).trans
        (Nat.add_le_add_left (Nat.mod_le _ _) cnt)
  exact (sums _ 0).trans_eq (Nat.zero_add _)

theorem length_triples : trace.triples.length = trace.total := by
  simp [triples,total,List.length_flatMap]

theorem mem_triples : (j,i,t) ∈ trace.triples ↔
    j ∈ trace.submitted ∧ i < trace.nIter j ∧ t < trace.modelSize j := by
  simp only [triples,List.mem_flatMap,List.mem_range,List.mem_map,Prod.mk.injEq]
  constructor
  · rintro ⟨_,job,_,iter,_,inside,rfl,rfl,rfl⟩
    exact ⟨job,iter,inside⟩
  · rintro ⟨job,iter,inside⟩
    exact ⟨j,job,i,iter,t,inside,rfl,rfl,rfl⟩

theorem triples_nodup : trace.triples.Nodup := by
  refine List.nodup_flatMap.mpr ⟨fun j _ => List.nodup_flatMap.mpr ⟨fun i _ => ?_,?_⟩,?_⟩
  · exact List.nodup_range.map fun t u same => (Prod.mk.inj (Prod.mk.inj same).2).2
  · refine List.nodup_range.imp fun {i i'} apart => ?_
    rw [Function.onFun_apply,List.disjoint_left]
    intro _ here there
    obtain ⟨_,_,rfl⟩ := List.mem_map.mp here
    obtain ⟨_,_,same⟩ := List.mem_map.mp there
    exact apart (Prod.mk.inj (Prod.mk.inj same).2).1.symm
  · refine trace.distinct.imp fun {j j'} apart => ?_
    rw [Function.onFun_apply,List.disjoint_left]
    intro _ here there
    obtain ⟨_,_,here⟩ := List.mem_flatMap.mp here
    obtain ⟨_,_,there⟩ := List.mem_flatMap.mp there
    obtain ⟨_,_,rfl⟩ := List.mem_map.mp here
    obtain ⟨_,_,same⟩ := List.mem_map.mp there
    exact apart (Prod.mk.inj same).1.symm

theorem rank_zero_iff (worker : w ∈ (trace.tree j).workers) :
    trace.rankForJob w j = 0 ↔ w = trace.lead j := by
  have member : w ∈ trace.order j := (trace.ranked j).mem_iff.mpr worker
  unfold rankForJob lead
  cases order : trace.order j with
  | nil =>
    rw [order] at member
    cases member
  | cons first rest =>
    rw [List.headD_cons]
    rcases eq_or_ne first w with rfl | other
    · simp
    · simp [List.idxOf_cons_ne rest other,other.symm]

end Trace

/-- A simulation with its bar. `written` is history: the indices of the bar that were written. -/
structure Session where
  training : Training
  cpb : CppProgressBar
  written : List Nat := []

namespace Session

/-- A step of the simulation, or a `myprintf`. -/
inductive Label where
  | training (label : Training.Label)
  | myprintf

/-- Only the jobs of the trace run. -/
def submits (trace : Trace) : Training.Label → Prop
  | .place j => j ∈ trace.submitted
  | _ => True

instance (trace : Trace) (label : Training.Label) : Decidable (submits trace label) :=
  match label with
  | .place j => inferInstanceAs (Decidable (j ∈ _))
  | .execute _ _ | .elapse _ _ | .resume _ | .call _ | .deliver _ => isTrue trivial

def counts (trace : Trace) (s : Training) (label : Training.Label) : Bool :=
  match s.ended trace.toPlan label with
  | some r => trace.rankForJob r.machine r.job = 0
  | none => false

def step (trace : Trace) : Label → Session → Option Session
  | .training label,s =>
    if submits trace label then
      (Training.step trace.toPlan label s.training).map fun training =>
        { s with
          training := training
          cpb := if counts trace s.training label then s.cpb.cntIncrement else s.cpb }
    else none
  | .myprintf,s => s.cpb.updateVariable.map fun (cpb,written) =>
    { s with cpb := cpb, written := s.written ++ written }

def initial (trace : Trace) : Session where
  training := Training.initial trace.toPlan
  cpb := .initVariable trace.collectives

/-- No index is past the last character, and the counter counts what is finished. -/
structure InBar (trace : Trace) (s : Session) : Prop where
  counted : s.cpb.loopCounter = trace.numFinished s.training
  inside : ∀ i ∈ s.written, i < 100

/-- The bar is not drawn with 100 percent or more, unless it shows them already, and the counter
does not wrap. -/
def safe (trace : Trace) : Label → Session → Prop
  | .training label,s => counts trace s.training label = true → s.cpb.loopCounter + 1 < 2^64
  | .myprintf,s => s.cpb.Drawn

instance (trace : Trace) (label : Label) (s : Session) : Decidable (safe trace label s) :=
  match label with
  | .training _ => inferInstanceAs (Decidable (_ → _))
  | .myprintf => inferInstanceAs (Decidable s.cpb.Drawn)

theorem countP_join {p q : α → Bool} {l : List α} (member : a ∈ l) (distinct : l.Nodup)
    (before : p a = false) (after : q a = true) (same : ∀ x ∈ l, x ≠ a → q x = p x) :
    l.countP q = l.countP p + 1 := by
  classical
  have split := List.perm_cons_erase member
  have others : (l.erase a).countP q = (l.erase a).countP p := by
    refine List.countP_congr fun x rest => ?_
    obtain ⟨apart,inside⟩ := distinct.mem_erase_iff.mp rest
    rw [same x inside apart]
  rw [split.countP_eq,split.countP_eq,List.countP_cons,List.countP_cons,others,before,after]
  rfl

structure Kept (trace : Trace) (s : Session) : Prop where
  ledger : Training.Ledger trace.toPlan s.training
  jobs : ∀ j ∈ s.training.jobs, j ∈ trace.submitted
  sized : s.cpb.Sized
  loops : s.cpb.progressLoopNumber = trace.collectives

variable {trace : Trace} {s s' : Session}

theorem lead_worker (trace : Trace) (j : Nat) : trace.lead j ∈ (trace.tree j).workers := by
  have ranked := trace.ranked j
  have staffed := trace.staffed j
  rw [← ranked.length_eq] at staffed
  rw [← ranked.mem_iff]
  unfold Trace.lead
  cases order : trace.order j with
  | nil => simp [order] at staffed
  | cons first rest => exact List.mem_cons_self

theorem counts_eq {training : Training} {label : Training.Label} {r : TensorRef}
    (ends : training.ended trace.toPlan label = some r) :
    counts trace training label = decide (trace.rankForJob r.machine r.job = 0) := by
  simp only [counts,ends]

theorem Kept.finishes (keys : trace.DistinctKeys) (kept : Kept trace s) {label : Training.Label}
    {training : Training} (taken : Training.step trace.toPlan label s.training = some training) :
    trace.numFinished training = trace.numFinished s.training +
      if counts trace s.training label then 1 else 0 := by
  obtain ⟨ledger,now⟩ := kept.ledger.step keys taken
  have real {x : Nat × Nat × Nat} (member : x ∈ trace.triples) :
      trace.Real ⟨trace.lead x.1,x.1,x.2.2⟩ :=
    ⟨lead_worker trace x.1,(trace.mem_triples.mp member).2.2⟩
  by_cases counted : counts trace s.training label = true
  · rw [if_pos counted]
    cases ends : s.training.ended trace.toPlan label with
    | none => simp [counts,ends] at counted
    | some r =>
      obtain ⟨exists',job⟩ := kept.ledger.ended_real taken ends
      rw [counts_eq ends,decide_eq_true_iff,trace.rank_zero_iff exists'.1] at counted
      obtain ⟨w,j,t⟩ := r
      obtain rfl : w = trace.lead j := counted
      have more := now _ exists'
      rw [ends,if_pos rfl] at more
      have bound := ledger.reduced_le ⟨trace.lead j,j,t⟩
      have member : (j,s.training.reduced trace.toPlan ⟨trace.lead j,j,t⟩,t) ∈ trace.triples := by
        refine trace.mem_triples.mpr ⟨kept.jobs j job,?_,exists'.2⟩
        have bound : training.reduced trace.toPlan ⟨trace.lead j,j,t⟩ ≤ trace.nIter j := bound
        omega
      refine countP_join member trace.triples_nodup ?_ ?_ ?_
      · simp [Trace.finished]
      · simp [Trace.finished,more]
      · rintro ⟨i,n,u⟩ inside other
        have same := now _ (real inside)
        rw [ends] at same
        simp only [Trace.finished,same]
        split
        · rename_i own
          obtain rfl : j = i := congrArg TensorRef.job (Option.some.inj own)
          obtain rfl : t = u := congrArg TensorRef.tensorId (Option.some.inj own)
          have apart : n ≠ s.training.reduced trace.toPlan ⟨trace.lead j,j,t⟩ := fun same =>
            other (by rw [same])
          rw [decide_eq_decide]
          omega
        · rfl
  · rw [if_neg counted]
    refine List.countP_congr fun x member => ?_
    have same := now _ (real member)
    rw [if_neg ?_] at same
    · simp only [Trace.finished,same]
      rfl
    · intro ends
      refine counted ?_
      rw [counts_eq ends,decide_eq_true_iff]
      exact (trace.rank_zero_iff (real member).1).mpr rfl

theorem Kept.step (keys : trace.DistinctKeys) (kept : Kept trace s) {label : Label}
    (taken : Session.step trace label s = some s') : Kept trace s' := by
  cases label with
  | training label =>
    simp only [Session.step] at taken
    split at taken
    · rename_i submitted
      obtain ⟨training,next,rfl⟩ := Option.map_eq_some_iff.mp taken
      refine ⟨(kept.ledger.step keys next).1,fun j member => ?_,?_,?_⟩
      · rcases Training.mem_jobs_of_step next member with old | rfl
        · exact kept.jobs j old
        · exact submitted
      · dsimp only
        split
        · exact kept.sized
        · exact kept.sized
      · dsimp only
        split
        · exact kept.loops
        · exact kept.loops
    · cases taken
  | myprintf =>
    obtain ⟨⟨cpb,written⟩,next,rfl⟩ := Option.map_eq_some_iff.mp taken
    obtain ⟨_,loops,hundredth⟩ := CppProgressBar.updateVariable_fields next
    refine ⟨kept.ledger,kept.jobs,?_,loops.trans kept.loops⟩
    rw [CppProgressBar.Sized,hundredth,loops]
    exact kept.sized

theorem initial_kept (trace : Trace) : Kept trace (initial trace) where
  ledger := Training.initial_ledger trace.toPlan
  jobs := nofun
  sized := rfl
  loops := rfl

theorem InBar.step_iff (keys : trace.DistinctKeys) (kept : Kept trace s) (inBar : InBar trace s)
    {label : Label} (taken : Session.step trace label s = some s') :
    InBar trace s' ↔ safe trace label s := by
  cases label with
  | training label =>
    simp only [Session.step] at taken
    split at taken
    · obtain ⟨training,next,rfl⟩ := Option.map_eq_some_iff.mp taken
      have more := kept.finishes keys next
      have before := inBar.counted
      have counted : (if counts trace s.training label then s.cpb.cntIncrement
          else s.cpb).loopCounter = trace.numFinished training ↔
          (counts trace s.training label = true → s.cpb.loopCounter + 1 < 2^64) := by
        split at more
        · rename_i counted
          simp only [counted,if_true,true_imp_iff]
          rw [more,← before,CppProgressBar.cntIncrement]
          exact Nat.mod_eq_iff_lt (by decide)
        · rename_i idle
          simp only [idle,Bool.false_eq_true,if_false,false_imp_iff,iff_true]
          exact before.trans more.symm
      exact ⟨fun after => counted.mp after.counted,fun safe => ⟨counted.mpr safe,inBar.inside⟩⟩
    · cases taken
  | myprintf =>
    obtain ⟨⟨cpb,written⟩,next,rfl⟩ := Option.map_eq_some_iff.mp taken
    have drawn := (CppProgressBar.updateVariable_inside_iff kept.sized next).1
    have counter := (CppProgressBar.updateVariable_fields next).1
    refine ⟨fun after => drawn.mp fun i member => ?_,fun safe => ⟨?_,fun i member => ?_⟩⟩
    · exact after.inside i (List.mem_append_right _ member)
    · exact counter.trans inBar.counted
    · rcases List.mem_append.mp member with old | new
      · exact inBar.inside i old
      · exact drawn.mpr safe i new

theorem below_of_safe (kept : Kept trace s) (below : s.cpb.percentage < 100) {label : Label}
    (allowed : safe trace label s) (taken : Session.step trace label s = some s') :
    s'.cpb.percentage < 100 := by
  cases label with
  | training label =>
    simp only [Session.step] at taken
    split at taken
    · obtain ⟨training,_,rfl⟩ := Option.map_eq_some_iff.mp taken
      dsimp only
      split
      · exact below
      · exact below
    · cases taken
  | myprintf =>
    obtain ⟨⟨cpb,written⟩,next,rfl⟩ := Option.map_eq_some_iff.mp taken
    exact (CppProgressBar.updateVariable_inside_iff kept.sized next).2 allowed below

theorem inBar_of_safe (trace : Trace) (keys : trace.DistinctKeys)
    (run : Runs.Run (step trace) (safe trace) (initial trace) s) :
    Kept trace s ∧ InBar trace s ∧ s.cpb.percentage < 100 := by
  have preserved (label : Label) (s s' : Session)
      (before : Kept trace s ∧ InBar trace s ∧ s.cpb.percentage < 100)
      (allowed : safe trace label s) (taken : step trace label s = some s') :
      Kept trace s' ∧ InBar trace s' ∧ s'.cpb.percentage < 100 := by
    obtain ⟨kept,inBar,below⟩ := before
    exact ⟨kept.step keys taken,(inBar.step_iff keys kept taken).mpr allowed,
      below_of_safe kept below allowed taken⟩
  have none : (initial trace).cpb.loopCounter = trace.numFinished (initial trace).training := by
    refine (List.countP_eq_zero.mpr ?_).symm
    rintro ⟨j,i,t⟩ _
    simp [Trace.finished,initial,Training.reduced,Training.passes,Training.initial]
  have start : (initial trace).cpb.percentage < 100 := (by norm_num : (0 : ℚ) < 100)
  have unwritten : ∀ i ∈ (initial trace).written, i < 100 := List.forall_mem_nil _
  have kept := run.invariant preserved ⟨initial_kept trace,⟨none,unwritten⟩,start⟩
  exact kept

/-- All jobs are over: their workers of rank 0 have torn them down. -/
def Over (trace : Trace) (s : Session) : Prop :=
  ∀ j ∈ trace.submitted, s.training.position (trace.lead j,j) = some .gone

theorem total_of_over (kept : Kept trace s) (inBar : InBar trace s) (past : Over trace s) :
    s.cpb.loopCounter = trace.total := by
  rw [inBar.counted,← trace.length_triples,Trace.numFinished,List.countP_eq_length]
  rintro ⟨j,i,t⟩ member
  obtain ⟨job,iter,inside⟩ := trace.mem_triples.mp member
  have all := kept.ledger.reduced_gone (r := ⟨trace.lead j,j,t⟩) ⟨lead_worker trace j,inside⟩
    (past j job)
  simp only [Trace.finished,all,decide_eq_true_iff]
  exact iter

/-- The counter is the number of finished collectives, all of them once the jobs are over, and
every index written is in the bar, as long as no drawing is of 100 percent or more. A drawing that
is breaks this, and so does any drawing after the jobs. -/
theorem progress_in_bar (trace : Trace) (keys : trace.DistinctKeys) :
    (∀ s, Runs.Run (step trace) (safe trace) (initial trace) s →
      InBar trace s ∧ s.cpb.loopCounter ≤ trace.total ∧
        (Over trace s → s.cpb.loopCounter = trace.total ∧
          ∀ s', step trace .myprintf s = some s' → ¬InBar trace s')) ∧
      ∀ s label s', Runs.Run (step trace) (safe trace) (initial trace) s →
        step trace label s = some s' → ¬safe trace label s → ¬InBar trace s' := by
  have breaks (s : Session) (label : Label) (s' : Session)
      (run : Runs.Run (step trace) (safe trace) (initial trace) s)
      (taken : step trace label s = some s') (unsafe' : ¬safe trace label s) :
      ¬InBar trace s' := by
    obtain ⟨kept,inBar,_⟩ := inBar_of_safe trace keys run
    exact fun after => unsafe' ((inBar.step_iff keys kept taken).mp after)
  refine ⟨fun s run => ?_,breaks⟩
  obtain ⟨kept,inBar,below⟩ := inBar_of_safe trace keys run
  refine ⟨inBar,?_,fun past => ?_⟩
  · rw [inBar.counted,← trace.length_triples]
    exact List.countP_le_length
  · have all := total_of_over kept inBar past
    refine ⟨all,fun s' taken => breaks s .myprintf s' run taken fun drawn => ?_⟩
    have full : ¬s.cpb.loopCounter < s.cpb.progressLoopNumber := by
      rw [all,kept.loops]
      exact Nat.not_lt.mpr trace.collectives_le
    rcases drawn with less | same
    · exact full less
    · rcases Nat.eq_zero_or_pos s.cpb.progressLoopNumber with zero | positive
      · have none : s.cpb.updateVariable = none := by
          rw [CppProgressBar.updateVariable,if_pos (by rw [kept.sized,zero]; norm_num)]
        simp [step,none] at taken
      · exact full ((CppProgressBar.percentageNow_lt_iff kept.sized positive).mp (same ▸ below))

/-- One job on workers 0 and 1, with one tensor. Worker 0 has rank 0. -/
def oneTensor (nIter : Nat) : Trace where
  toPlan := Training.onePacket nIter
  submitted := [0]
  distinct := Rounds.oneTor.torsDistinct
  order _ := [0,1]
  ranked _ := List.Perm.refl _

/-- Worker 0 ends an iteration, and a `myprintf` draws the bar. -/
def firstDrawing : List Label :=
  (Training.contributions ++
    [Training.packet 0 (.down 0) 1,.resume (.call ⟨0,0,0⟩ 0)]).map .training ++ [.myprintf]

theorem progress_in_bar_half :
    ∃ s, Runs.Run (step (oneTensor 2)) (safe (oneTensor 2)) (initial (oneTensor 2)) s ∧
      s.cpb.loopCounter = 1 ∧ s.written = List.range 51 ∧ InBar (oneTensor 2) s := by
  have ends : (Runs.exec (step (oneTensor 2)) (safe (oneTensor 2)) firstDrawing
      (initial (oneTensor 2))).map (fun s => (s.cpb.loopCounter,s.written)) =
      some (1,List.range 51) := by decide +kernel
  obtain ⟨s,run,view⟩ := Runs.exists_run_of_exec ends
  obtain ⟨counter,written⟩ := Prod.mk.inj view
  exact ⟨s,run,counter,written,
    ((progress_in_bar _ (Training.onePacket_distinct 2)).1 s run).1⟩

/-- The bar is drawn when the only collective of a trace has ended. -/
theorem last_drawing_leaves_bar : (oneTensor 1).total = 1 ∧
    ∃ s, Runs.Run (step (oneTensor 1)) Runs.anyStep (initial (oneTensor 1)) s ∧
      s.cpb.loopCounter = 1 ∧ s.cpb.progressBar.length = 100 ∧ 100 ∈ s.written := by
  have ends : (Runs.exec (step (oneTensor 1)) Runs.anyStep firstDrawing
      (initial (oneTensor 1))).map
        (fun s => (s.cpb.loopCounter,s.cpb.progressBar.length,decide (100 ∈ s.written))) =
      some (1,100,true) := by decide +kernel
  obtain ⟨s,run,view⟩ := Runs.exists_run_of_exec ends
  obtain ⟨counter,view⟩ := Prod.mk.inj view
  obtain ⟨length,member⟩ := Prod.mk.inj view
  exact ⟨rfl,s,run,counter,length,of_decide_eq_true member⟩

end Session
end CloudSim
