import ShmPcc.Lib.Machine

/-!
# The lock word of rlock.cc without cache coherence

Under `NO_CC` the lock word is an `nt<lock_t>`, and the functions reach it by the load,
the store and the compare-and-swap of that type. `rlock_cas` was one instruction that
returned the word it found; here it is a load and then a compare-and-swap, and it returns
what the load found.

Each access of `lock_` and each store to `owner_` is one step. `holds` is no variable of
the program: it is what the thread makes of the values returned to it. `rlock_lock`
returns with the lock, and from `rlock_cas` and `rlock_tas` a thread that gets back the
word of a free lock takes it to be its own.
-/

namespace ShmPcc.Rlock

/-- `rlock_t` -/
structure Mem where
  lock : UInt8
  owner : UInt16
deriving DecidableEq

inductive Op where
  | rlockLock (lock : UInt8) (owner : UInt16)
  | rlockUnlock
  | rlockCas (expected desired : UInt8)
  | rlockTas

inductive Pc where
  | idle
  | lockCas (desired : UInt8) (owner : UInt16)
  | lockOwner (desired : UInt8) (owner : UInt16)
  | unlockStore
  | unlockOwner
  | casLoad (expected desired : UInt8)
  | casSwap (expected desired ll : UInt8)
  | tasLoad
  | tasSwap (oldval : UInt8)
deriving DecidableEq

/-- A call of `rlock_cas` that is over: what it returned, and whether its compare-and-swap
changed the lock. -/
structure CasCall where
  expected : UInt8
  returned : UInt8
  swapped : Bool
deriving DecidableEq

structure Local where
  pc : Pc
  holds : Bool
  cas : Option CasCall
deriving DecidableEq

/-- `nt::compare_exchange_strong` on the lock word. -/
def Mem.compareExchangeStrong (m : Mem) (expected desired : UInt8) : Bool × Mem :=
  if m.lock = expected then (true, { m with lock := desired }) else (false, m)

def call (_ : Nat) (op : Op) (l : Local) (m : Mem) : Option (Local × Mem) :=
  match l.pc, op with
  | .idle, .rlockLock lock owner => some ({ l with pc := .lockCas lock owner }, m)
  | .idle, .rlockUnlock => some ({ l with pc := .unlockStore }, m)
  | .idle, .rlockCas expected desired => some ({ l with pc := .casLoad expected desired }, m)
  | .idle, .rlockTas => some ({ l with pc := .tasLoad }, m)
  | _, _ => none

def run (_ : Nat) (l : Local) (m : Mem) : Option (Local × Mem) :=
  match l.pc with
  | .idle => none
  | .lockCas desired owner =>
    let (ok, m) := m.compareExchangeStrong 0 desired
    if ok then some ({ l with pc := .idle, holds := true }, m)
    else some ({ l with pc := .lockOwner desired owner }, m)
  | .lockOwner desired owner => some ({ l with pc := .lockCas desired owner }, { m with owner := owner })
  | .unlockStore => some ({ l with pc := .unlockOwner, holds := false }, { m with lock := 0 })
  | .unlockOwner => some ({ l with pc := .idle }, { m with owner := 0 })
  | .casLoad expected desired => some ({ l with pc := .casSwap expected desired m.lock }, m)
  | .casSwap expected desired ll =>
    let (ok, m) := m.compareExchangeStrong expected desired
    some (⟨.idle, l.holds || ll == expected, some ⟨expected, ll, ok⟩⟩, m)
  | .tasLoad => some ({ l with pc := .tasSwap m.lock }, m)
  | .tasSwap oldval =>
    let (ok, m) := m.compareExchangeStrong oldval 0xFF
    if ok then some ({ l with pc := .idle, holds := l.holds || oldval == 0 }, m)
    else some ({ l with pc := .tasLoad }, m)

def machine : Machine Mem Local Op := ⟨call, run⟩

/-- No call is under way, and no thread holds the lock. The word may have any value. -/
def fresh (s : Sys Mem Local) : Prop := ∀ t, s.loc t = ⟨.idle, false, none⟩

/-- How the functions are used: locks are taken from the free word to another one, and
released by those that believe they hold them. -/
def locking (s : Sys Mem Local) : Act Op → Prop
  | .call _ (.rlockLock lock _) => lock ≠ 0
  | .call t .rlockUnlock => (s.loc t).holds = true
  | .call _ (.rlockCas expected desired) => expected = 0 ∧ desired ≠ 0
  | _ => True

instance (s : Sys Mem Local) : (a : Act Op) → Decidable (locking s a)
  | .call _ (.rlockLock lock _) => inferInstanceAs (Decidable (lock ≠ 0))
  | .call t .rlockUnlock => inferInstanceAs (Decidable ((s.loc t).holds = true))
  | .call _ (.rlockCas expected desired) => inferInstanceAs (Decidable (expected = 0 ∧ desired ≠ 0))
  | .call _ .rlockTas => .isTrue trivial
  | .run _ => .isTrue trivial

/-- The lock word at the compare-and-swap of an `rlock_cas` is the one it loaded. -/
def Local.unchanged (l : Local) (m : Mem) : Bool :=
  match l.pc with
  | .casSwap _ _ ll => m.lock == ll
  | _ => true

def undisturbed (s : Sys Mem Local) (a : Act Op) : Prop :=
  locking s a ∧ ∀ t, a = .run t → (s.loc t).unchanged s.mem = true

instance (s : Sys Mem Local) : (a : Act Op) → Decidable (undisturbed s a)
  | .call t op => decidable_of_iff (locking s (.call t op)) ⟨fun h => ⟨h, nofun⟩, And.left⟩
  | .run t => decidable_of_iff ((s.loc t).unchanged s.mem = true)
      ⟨fun h => ⟨trivial, fun _ heq => by cases heq; exact h⟩, fun h => h.2 t rfl⟩

end ShmPcc.Rlock
