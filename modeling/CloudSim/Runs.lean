import Mathlib.Data.List.Basic

/-! Runs of labelled transition systems. A label resolves every choice of a step,
so a run is a list of labels and `exec` computes its last state. `Run` also
records a condition that every step meets in the state before it. -/
namespace CloudSim.Runs

/-- A finite run of `step` in which every step is `ok` where it is taken. -/
inductive Run (step : L → S → Option S) (ok : L → S → Prop) : S → S → Prop where
  | nil : Run step ok s s
  | snoc : Run step ok s t → ok l t → step l t = some u → Run step ok s u

/-- No condition on the steps. -/
def anyStep : L → S → Prop := fun _ _ => True

instance (l : L) (s : S) : Decidable (anyStep l s) := isTrue trivial

/-- The labels in turn, while each is `ok`. -/
def exec (step : L → S → Option S) (ok : L → S → Prop) [∀ l s, Decidable (ok l s)] :
    List L → S → Option S
  | [],s => some s
  | l :: rest,s => if ok l s then (step l s).bind (exec step ok rest) else none

theorem Run.invariant {step : L → S → Option S} {ok : L → S → Prop} {holds : S → Prop}
    (preserved : ∀ l s t, holds s → ok l s → step l s = some t → holds t)
    (run : Run step ok s t) (initial : holds s) : holds t := by
  induction run with
  | nil => exact initial
  | snoc _ allowed taken ih => exact preserved _ _ _ ih allowed taken

theorem Run.cons {step : L → S → Option S} {ok : L → S → Prop}
    (allowed : ok l s) (taken : step l s = some t) (run : Run step ok t u) : Run step ok s u := by
  induction run with
  | nil => exact .snoc .nil allowed taken
  | snoc _ later next ih => exact .snoc ih later next

theorem Run.trans {step : L → S → Option S} {ok : L → S → Prop} (run : Run step ok s t)
    (more : Run step ok t u) : Run step ok s u := by
  induction more with
  | nil => exact run
  | snoc _ allowed taken ih => exact .snoc ih allowed taken

theorem run_of_exec {step : L → S → Option S} {ok : L → S → Prop}
    [∀ l s, Decidable (ok l s)] {labels : List L} {s t : S}
    (result : exec step ok labels s = some t) : Run step ok s t := by
  induction labels generalizing s with
  | nil => cases result; exact .nil
  | cons l rest ih =>
    simp only [exec] at result
    split at result
    · rename_i allowed
      obtain ⟨middle,taken,remaining⟩ := Option.bind_eq_some_iff.mp result
      exact .cons allowed taken (ih remaining)
    · cases result

/-- The end of an execution, known by what can be seen of it. -/
theorem exists_run_of_exec {step : L → S → Option S} {ok : L → S → Prop}
    [∀ l s, Decidable (ok l s)] {labels : List L} {s : S} {view : S → A} {a : A}
    (result : (exec step ok labels s).map view = some a) : ∃ t, Run step ok s t ∧ view t = a := by
  obtain ⟨t,ends,seen⟩ := Option.map_eq_some_iff.mp result
  exact ⟨t,run_of_exec ends,seen⟩

theorem foldlM_invariant {f : S → L → Option S} {holds : S → Prop}
    (preserved : ∀ l s t, holds s → f s l = some t → holds t) {labels : List L} {s t : S}
    (result : labels.foldlM f s = some t) (initial : holds s) : holds t := by
  induction labels generalizing s with
  | nil => cases result; exact initial
  | cons l rest ih =>
    rw [List.foldlM_cons] at result
    obtain ⟨middle,taken,remaining⟩ := Option.bind_eq_some_iff.mp result
    exact ih remaining (preserved _ _ _ initial taken)

end CloudSim.Runs
