import Mathlib.Data.List.Basic

/-! A counting resource whose requests wait in a FIFO queue. -/
namespace CloudSim

structure Resource (E : Type) where
  available : Nat := 1
  evs : List E := []

namespace Resource

instance : Inhabited (Resource E) := ⟨{}⟩

/-- The events triggered, in order, and the resource that remains. -/
def triggerEvs : Nat → List E → List E × Resource E
  | available + 1,ev :: evs =>
    let (triggered,r) := triggerEvs available evs
    (ev :: triggered,r)
  | available,evs => ([],{ available := available, evs := evs })

def request (r : Resource E) (ev : E) : List E × Resource E :=
  triggerEvs r.available (r.evs ++ [ev])

def release (r : Resource E) : List E × Resource E := triggerEvs (r.available + 1) r.evs

@[simp] theorem request_free (units : Nat) (ev : E) :
    request { available := units + 1, evs := [] } ev = ([ev],{ available := units, evs := [] }) := by
  cases units <;> rfl

@[simp] theorem request_taken (evs : List E) (ev : E) :
    request { available := 0, evs := evs } ev = ([],{ available := 0, evs := evs ++ [ev] }) := by
  cases evs <;> rfl

@[simp] theorem release_idle (units : Nat) :
    release { available := units, evs := ([] : List E) } =
      ([],{ available := units + 1, evs := [] }) := rfl

@[simp] theorem release_waiting (ev : E) (evs : List E) :
    release { available := 0, evs := ev :: evs } = ([ev],{ available := 0, evs := evs }) := by
  cases evs <;> rfl

end Resource

/-- A resource of one unit whose holder is the only one to release it. -/
inductive Mutex (E : Type) where
  | free
  | held (owner : E) (waiting : List E)

namespace Mutex

def resource : Mutex E → Resource E
  | free => { available := 1, evs := [] }
  | held _ waiting => { available := 0, evs := waiting }

def owner : Mutex E → Option E
  | free => none
  | held owner _ => some owner

def waiting : Mutex E → List E
  | free => []
  | held _ waiting => waiting

def request (ev : E) : Mutex E → Mutex E
  | free => held ev []
  | held owner waiting => held owner (waiting ++ [ev])

def release : Mutex E → Mutex E
  | held _ (ev :: waiting) => held ev waiting
  | _ => free

/-- The events that a request triggers. -/
def granted (ev : E) : Mutex E → List E
  | free => [ev]
  | held _ _ => []

theorem resource_request (m : Mutex E) (ev : E) :
    m.resource.request ev = (m.granted ev,(m.request ev).resource) := by
  cases m with
  | free => exact Resource.request_free 0 ev
  | held owner waiting => exact Resource.request_taken waiting ev

theorem resource_release (owner : E) (waiting : List E) :
    (held owner waiting).resource.release =
      (waiting.take 1,(held owner waiting).release.resource) := by
  cases waiting with
  | nil => exact Resource.release_idle 0
  | cons ev waiting => exact Resource.release_waiting ev waiting

end Mutex
end CloudSim
