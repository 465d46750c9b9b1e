import Mathlib

/-!
# Names drawn by threads

A thread that allocates something draws a new name for it, and the name is in
the hands of that thread alone until it settles it, by publishing the thing or by
giving it up. `Fresh` counts the names and knows who holds which. What is settled
stays settled, what a thread holds nobody else touches, and the two are disjoint.
-/

namespace ShmPcc

open Function

structure Fresh where
  count : Nat
  holder : Nat → Option Nat

namespace Fresh

/-- No name has been drawn. -/
def new : Fresh := ⟨0, fun _ => none⟩

/-- Thread `u` draws the name `f.count`. -/
def draw (f : Fresh) (u : Nat) : Fresh :=
  ⟨f.count + 1, update f.holder f.count (some u)⟩

def settle (f : Fresh) (i : Nat) : Fresh :=
  { f with holder := update f.holder i none }

def Settled (f : Fresh) (i : Nat) : Prop := i < f.count ∧ f.holder i = none

def HeldBy (f : Fresh) (u i : Nat) : Prop := i < f.count ∧ f.holder i = some u

/-- What thread `u` does with names. -/
inductive Step (u : Nat) (f : Fresh) : Fresh → Prop where
  | stay : Step u f f
  | draw : Step u f (f.draw u)
  | settle {i : Nat} (h : f.HeldBy u i) : Step u f (f.settle i)

variable {f f' : Fresh} {u w i j : Nat}

theorem heldBy_draw : (f.draw u).HeldBy u f.count :=
  ⟨Nat.lt_succ_self _, update_self ..⟩

theorem HeldBy.settle (h : f.HeldBy u i) : (f.settle i).Settled i :=
  ⟨h.1, update_self ..⟩

theorem Settled.ne (hi : f.Settled i) (hj : f.HeldBy u j) : i ≠ j := by
  rintro rfl
  have := hi.2.symm.trans hj.2
  cases this

theorem Settled.step (hi : f.Settled i) (h : Step u f f') : f'.Settled i := by
  cases h with
  | stay => exact hi
  | draw =>
    refine ⟨Nat.lt_succ_of_lt hi.1, ?_⟩
    exact (update_of_ne (Nat.ne_of_lt hi.1) ..).trans hi.2
  | settle hj => exact ⟨hi.1, (update_of_ne (hi.ne hj) ..).trans hi.2⟩

theorem HeldBy.step (hw : w ≠ u) (hi : f.HeldBy w i) (h : Step u f f') : f'.HeldBy w i := by
  cases h with
  | stay => exact hi
  | draw =>
    refine ⟨Nat.lt_succ_of_lt hi.1, ?_⟩
    exact (update_of_ne (Nat.ne_of_lt hi.1) ..).trans hi.2
  | @settle j hj =>
    have hne : i ≠ j := by
      rintro rfl
      exact hw (Option.some.inj (hi.2.symm.trans hj.2))
    exact ⟨hi.1, (update_of_ne hne ..).trans hi.2⟩

end Fresh

end ShmPcc
