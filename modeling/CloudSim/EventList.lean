import Mathlib.Data.List.Basic

/-! Sources that ask to be called at a time. An event whose time has come may be taken next;
time never passes an event. -/
namespace CloudSim

/-- `doNextEvent` of the source of each pending event runs at its time. -/
structure EventList (S : Type) where
  now : Nat := 0
  pending : List (Nat × S) := []

namespace EventList

def sourceIsPending (ev : EventList S) (src : S) (time : Nat) : EventList S :=
  { ev with pending := ev.pending ++ [(time,src)] }

def sourceIsPendingRel (ev : EventList S) (src : S) (timeFromNow : Nat) : EventList S :=
  ev.sourceIsPending src (ev.now + timeFromNow)

def tick (ev : EventList S) (d : Nat) : Option (EventList S) :=
  if ∀ e ∈ ev.pending, ev.now + d ≤ e.1 then some { ev with now := ev.now + d } else none

variable {ev ev' : EventList S} {src other : S}

@[simp] theorem now_sourceIsPending (time : Nat) : (ev.sourceIsPending src time).now = ev.now := rfl

@[simp] theorem now_sourceIsPendingRel (time : Nat) :
    (ev.sourceIsPendingRel src time).now = ev.now := rfl

variable [DecidableEq S]

/-- The event is over before `doNextEvent` starts. -/
def fire (ev : EventList S) (src : S) : Option (EventList S) :=
  if (ev.now,src) ∈ ev.pending then some { ev with pending := ev.pending.erase (ev.now,src) }
  else none

/-- The times of the pending events of a source. -/
def due (ev : EventList S) (src : S) : List Nat :=
  (ev.pending.filter fun e => e.2 = src).map Prod.fst

@[simp] theorem due_sourceIsPending (time : Nat) :
    (ev.sourceIsPending src time).due src = ev.due src ++ [time] := by
  simp [due,sourceIsPending]

@[simp] theorem due_sourceIsPending_other (apart : other ≠ src) (time : Nat) :
    (ev.sourceIsPending src time).due other = ev.due other := by
  simp [due,sourceIsPending,apart.symm]

@[simp] theorem due_sourceIsPendingRel (time : Nat) :
    (ev.sourceIsPendingRel src time).due src = ev.due src ++ [ev.now + time] :=
  due_sourceIsPending _

@[simp] theorem due_sourceIsPendingRel_other (apart : other ≠ src) (time : Nat) :
    (ev.sourceIsPendingRel src time).due other = ev.due other :=
  due_sourceIsPending_other apart _

theorem tick_spec (ticked : ev.tick d = some ev') :
    ev'.now = ev.now + d ∧ (∀ src, ev'.due src = ev.due src) ∧
      ∀ src, ∀ time ∈ ev'.due src, ev'.now ≤ time := by
  simp only [tick,Option.ite_none_right_eq_some,Option.some.injEq] at ticked
  obtain ⟨none,rfl⟩ := ticked
  refine ⟨rfl,fun _ => rfl,fun src time member => ?_⟩
  obtain ⟨e,inside,rfl⟩ := List.mem_map.mp member
  exact none e (List.mem_of_mem_filter inside)

theorem erase_due (pending : List (Nat × S)) (time : Nat) :
    ((pending.erase (time,src)).filter fun e => e.2 = src).map Prod.fst =
      ((pending.filter fun e => e.2 = src).map Prod.fst).erase time := by
  induction pending with
  | nil => rfl
  | cons e rest ih =>
    by_cases same : e = (time,src)
    · subst same
      simp
    · rw [List.erase_cons_tail (by simpa using same)]
      by_cases mine : e.2 = src
      · have later : e.1 ≠ time := fun now => same (Prod.ext now mine)
        simp [mine,later,ih]
      · simp [mine,ih]

theorem erase_due_other (apart : other ≠ src) (pending : List (Nat × S)) (time : Nat) :
    ((pending.erase (time,src)).filter fun e => e.2 = other) =
      pending.filter fun e => e.2 = other := by
  induction pending with
  | nil => rfl
  | cons e rest ih =>
    by_cases same : e = (time,src)
    · subst same
      simp [apart.symm]
    · rw [List.erase_cons_tail (by simpa using same)]
      simp [List.filter_cons,ih]

/-- One event of the source at the present time is used up. -/
theorem fire_spec (fired : ev.fire src = some ev') :
    ev'.now = ev.now ∧ ev.now ∈ ev.due src ∧ ev'.due src = (ev.due src).erase ev.now ∧
      ∀ other, other ≠ src → ev'.due other = ev.due other := by
  simp only [fire,Option.ite_none_right_eq_some,Option.some.injEq] at fired
  obtain ⟨pending,rfl⟩ := fired
  refine ⟨rfl,?_,erase_due _ _,fun other apart => ?_⟩
  · exact List.mem_map.mpr ⟨_,List.mem_filter.mpr ⟨pending,by simp⟩,rfl⟩
  · exact congrArg (List.map Prod.fst) (erase_due_other apart _ _)

end EventList
end CloudSim
