import Mathlib

/-!
# A mutex with one condition variable

What threads that use a mutex and a condition variable see of each other: who has the
mutex, and who waits. `wait` gives up the mutex and joins the waiters in one step. A
thread is woken by being taken out of the waiters, and goes on when it has the mutex
again. `wake` is one thread being woken, whether a notification chose it or nothing did;
a notification that finds no waiter is lost.
-/

namespace ShmPcc

structure Monitor where
  holder : Option Nat
  waiting : List Nat
deriving DecidableEq

namespace Monitor

def new : Monitor := ⟨none, []⟩

def acquire (u : Nat) (m : Monitor) : Option Monitor :=
  if m.holder = none then some { m with holder := some u } else none

def release (m : Monitor) : Monitor := { m with holder := none }

def wait (u : Nat) (m : Monitor) : Monitor := ⟨none, u :: m.waiting⟩

/-- A thread that has been woken takes the mutex. -/
def resume (u : Nat) (m : Monitor) : Option Monitor :=
  if u ∈ m.waiting then none else m.acquire u

def wake (w : Nat) (m : Monitor) : Option Monitor :=
  if w ∈ m.waiting then some { m with waiting := m.waiting.filter (· ≠ w) } else none

def notifyAll (m : Monitor) : Monitor := { m with waiting := [] }

variable {u w : Nat} {m m' : Monitor} {α : Type} {f : Monitor → α} {a : α}

theorem map_acquire :
    (m.acquire u).map f = some a ↔ m.holder = none ∧ f { m with holder := some u } = a := by
  unfold acquire
  split <;> simp [*]

theorem map_resume : (m.resume u).map f = some a ↔
    u ∉ m.waiting ∧ m.holder = none ∧ f { m with holder := some u } = a := by
  unfold resume
  split
  · next h => simp [h]
  · next h => rw [map_acquire, and_iff_right h]

theorem map_wake : (m.wake w).map f = some a ↔
    w ∈ m.waiting ∧ f { m with waiting := m.waiting.filter (· ≠ w) } = a := by
  unfold wake
  split <;> simp [*]

/-- What a step of thread `u` is to the others. -/
inductive Moves (u : Nat) (m : Monitor) : Monitor → Prop where
  | quiet : Moves u m m
  | acquire (h : m.holder = none) : Moves u m { m with holder := some u }
  | release (h : m.holder = some u) : Moves u m m.release
  | wait (h : m.holder = some u) : Moves u m (m.wait u)
  | wake (w : Nat) : Moves u m { m with waiting := m.waiting.filter (· ≠ w) }
  | notifyAll : Moves u m m.notifyAll

theorem Moves.holder (h : Moves u m m') (hw : w ≠ u) : m'.holder = some w ↔ m.holder = some w := by
  cases h with
  | quiet | wake | notifyAll => exact Iff.rfl
  | acquire h => simp [h, Ne.symm hw]
  | release h | wait h => simp [Monitor.release, Monitor.wait, h, Ne.symm hw]

theorem Moves.waiting (h : Moves u m m') (hw : w ∈ m'.waiting) :
    w ∈ m.waiting ∨ w = u ∧ m.holder = some u := by
  cases h with
  | quiet | acquire | release => exact .inl hw
  | wake x => exact .inl (List.mem_filter.mp hw).1
  | notifyAll => cases hw
  | wait h =>
    obtain rfl | hw := List.mem_cons.mp hw
    · exact .inr ⟨rfl, h⟩
    · exact .inl hw

theorem Moves.waiting_of_ne (h : Moves u m m') (hwu : w ≠ u) (hw : w ∈ m'.waiting) : w ∈ m.waiting :=
  (h.waiting hw).resolve_right fun hu => hwu hu.1

end Monitor

end ShmPcc
