import Mathlib.Data.List.Basic

/-! Deterministic machines that answer every input. `answers_filter` is the unwinding
rule: inputs that leave a view alone can be removed without changing the answers to
the inputs that the view decides. -/
namespace CloudSim.Mealy

variable {S I O V : Type}

def after (step : S → I → S × O) : S → List I → S
  | s, [] => s
  | s, i :: rest => after step (step s i).1 rest

def answers (step : S → I → S × O) : S → List I → List (I × O)
  | _, [] => []
  | s, i :: rest => (i,(step s i).2) :: answers step (step s i).1 rest

/-- Among the admitted inputs, those outside `mine` leave the view alone, and the view
decides what the others do to it and how they are answered. -/
structure Separated (step : S → I → S × O) (admitted : I → Prop) (mine : I → Bool)
    (view : S → V) : Prop where
  frame : ∀ s i, admitted i → mine i = false → view (step s i).1 = view s
  next : ∀ s t i, mine i = true → view s = view t → view (step s i).1 = view (step t i).1
  answer : ∀ s t i, mine i = true → view s = view t → (step s i).2 = (step t i).2

theorem answers_filter {step : S → I → S × O} {admitted : I → Prop} {mine : I → Bool}
    {view : S → V} (separated : Separated step admitted mine view) (inputs : List I)
    (allowed : ∀ i ∈ inputs, admitted i) (s t : S) (same : view s = view t) :
    (answers step s inputs).filter (fun a => mine a.1) = answers step t (inputs.filter mine) := by
  induction inputs generalizing s t with
  | nil => rfl
  | cons i rest ih =>
    have later := fun j member => allowed j (List.mem_cons_of_mem i member)
    cases own : mine i with
    | false =>
      simp only [answers,List.filter_cons,own,Bool.false_eq_true,↓reduceIte]
      exact ih later _ _ ((separated.frame s i (allowed i List.mem_cons_self) own).trans same)
    | true =>
      simp only [answers,List.filter_cons,own,↓reduceIte]
      rw [separated.answer s t i own same,ih later _ _ (separated.next s t i own same)]

end CloudSim.Mealy
