import ShmPcc.Lib.Pool

/-!
# `HelpUpdate`: one pointer, replicated per reader

The reference semantics of `replica_help_update/help_update.h`. A writer puts
its value into the global pointer with the lock bit set, writes it with the
lock bit set into every replica, and then clears the bit in the global
pointer; whoever meets a set lock bit on the way helps the update along. A
reader loads its own replica only.

One atomic step is one load or one compare-exchange of the global pointer or
of one replica. `LockedPointer` is the word arithmetic of the source, bit for
bit; `nt_pointer`'s `load` and `compare_exchange_strong` are the two accesses.

Two fields of the memory are not in the source. `installed` lists the values
that went into the global pointer, oldest first, and `issuer` says which
thread passed a value as `new_val`; a value is passed once. Neither is read by
the code.
-/

namespace ShmPcc.HelpUpdate

open Function

abbrev Ptr := BitVec 64

namespace LockedPointer

def clearLockBit (val : Ptr) : Ptr := val &&& ~~~1#64

def setLockBit (val : Ptr) : Ptr := val ||| 1#64

/-- A `LockedPointer` is its `ptr_`; `from_locked` builds one from a pointer
that may carry the lock bit. -/
def fromLocked (lockedPtr : Ptr) : Ptr := clearLockBit lockedPtr

def withLock (ptr : Ptr) : Ptr := setLockBit ptr

def hasLock (ptr : Ptr) : Bool :=
  if ptr = 0#64 then false else ptr &&& 1#64 != 0#64

def clearLock (ptr : Ptr) : Ptr :=
  if ptr = 0#64 then 0#64 else clearLockBit ptr

end LockedPointer

open LockedPointer

structure Mem where
  globalPtr : Ptr
  replicaPtrs : Nat → Ptr
  installed : List Ptr
  issuer : Ptr → Option Nat

/-- The accesses of the code. `helpReload` is the load of `current_cas` inside
`help_update(expected, _)` after its compare-exchange on replica `i` failed. -/
inductive Site where
  | globalLoad
  | globalInstall
  | globalUnlock
  | replicaLoad (i : Nat)
  | replicaCas (i : Nat)
  | helpReload (i : Nat) (expected : Ptr)
  | readerReload (i : Nat)

def loadGlobal : Prog Site Mem Ptr :=
  Prog.read .globalLoad fun m => m.globalPtr

def loadReplica (i : Nat) : Prog Site Mem Ptr :=
  Prog.read (.replicaLoad i) fun m => m.replicaPtrs i

def casReplica (i : Nat) (expected desired : Ptr) : Prog Site Mem Bool :=
  Prog.rmw (.replicaCas i)
    (fun m =>
      if m.replicaPtrs i = expected then
        { m with replicaPtrs := update m.replicaPtrs i desired }
      else m)
    (fun m => m.replicaPtrs i == expected)

/-- The compare-exchange that clears the lock bit of the global pointer. -/
def casUnlock (expected desired : Ptr) : Prog Site Mem Bool :=
  Prog.rmw .globalUnlock
    (fun m =>
      if m.globalPtr = expected then { m with globalPtr := desired } else m)
    (fun m => m.globalPtr == expected)

/-- The compare-exchange that puts a new value into the global pointer. -/
def casInstall (expected newVal : Ptr) : Prog Site Mem Bool :=
  Prog.rmw .globalInstall
    (fun m =>
      if m.globalPtr = expected then
        { m with
          globalPtr := withLock newVal
          installed := m.installed ++ [newVal] }
      else m)
    (fun m => m.globalPtr == expected)

def currentCas (reload : Site) (i : Nat) (oldVal newVal : Ptr) : Prog Site Mem Bool := do
  let done ← casReplica i oldVal newVal
  if done then
    pure true
  else do
    let cur ← Prog.read reload fun m => m.replicaPtrs i
    pure (cur == newVal)

/-- The loop of `help_update` with `n` replicas to go, at replica `i`. -/
def helpLoop (expected : Ptr) : Nat → Nat → Prog Site Mem Bool
  | 0, _ => do
    let _ ← casUnlock (withLock expected) expected
    pure true
  | n + 1, i => do
    let curGlobalPtr ← loadGlobal
    if fromLocked curGlobalPtr = expected ∧ hasLock curGlobalPtr = false then
      pure true
    else do
      let localR ← loadReplica i
      if fromLocked localR ≠ expected then do
        let curGlobalPtr ← loadGlobal
        if fromLocked curGlobalPtr ≠ expected then
          pure false
        else do
          let done ← currentCas (.helpReload i expected) i localR (withLock expected)
          if done then helpLoop expected n (i + 1) else pure false
      else helpLoop expected n (i + 1)

def helpUpdate (replicaNum : Nat) (expectedVal : Ptr) (startCheckId : Nat) : Prog Site Mem Bool :=
  if startCheckId < replicaNum then
    helpLoop expectedVal (replicaNum - startCheckId) startCheckId
  else Prog.halt

def casPtr (replicaNum : Nat) (oldVal newVal : Ptr) : Prog Site Mem Bool := do
  let curGlobal ← loadGlobal
  let _ ← (if hasLock curGlobal = true then
      helpUpdate replicaNum (clearLock curGlobal) 0
    else pure true)
  let done ← casInstall oldVal newVal
  if done then do
    let _ ← helpUpdate replicaNum newVal 0
    pure true
  else pure false

def loadPtr (replicaNum threadId : Nat) : Prog Site Mem Ptr :=
  if threadId < replicaNum then do
    let localR ← loadReplica threadId
    if hasLock localR = false then
      pure localR
    else do
      let clearedVal := clearLock localR
      let _ ← (if threadId + 1 < replicaNum then
          helpUpdate replicaNum clearedVal (threadId + 1)
        else pure true)
      let _ ← currentCas (.readerReload threadId) threadId localR clearedVal
      pure clearedVal
  else Prog.halt

/-! ## The object

Replica `i` is loaded by thread `i` only, so `loadPtr` needs no argument; any
thread may call `cas_ptr`. -/

inductive Op where
  | casPtr (oldVal newVal : Ptr)
  | loadPtr
deriving DecidableEq

inductive Ret where
  | cas (ok : Bool)
  | load (ptr : Ptr)
deriving DecidableEq

/-- New values are aligned, not null and used once. -/
def enter (t : Nat) : Op → Mem → Option Mem
  | .casPtr _ newVal, m =>
    if newVal ≠ 0#64 ∧ newVal &&& 1#64 = 0#64 ∧ m.issuer newVal = none then
      some { m with issuer := update m.issuer newVal (some t) }
    else none
  | .loadPtr, m => some m

def code (replicaNum t : Nat) : Op → Prog Site Mem Ret
  | .casPtr oldVal newVal => do
    let ok ← casPtr replicaNum oldVal newVal
    pure (.cas ok)
  | .loadPtr => do
    let ptr ← loadPtr replicaNum t
    pure (.load ptr)

def obj (replicaNum : Nat) : Obj Site Mem Op Ret where
  code := code replicaNum
  enter := enter
  leave _ _ _ m := m

/-- The global pointer and all replicas hold the same unlocked pointer. -/
def start (p : Ptr) : Mem where
  globalPtr := p
  replicaPtrs _ := p
  installed := [p]
  issuer := fun q => if q = p then some 0 else none

def Init (m : Mem) : Prop := ∃ p : Ptr, p &&& 1#64 = 0#64 ∧ m = start p

abbrev Config := Cfg Site Mem Op Ret

/-! ## What is observed

The values a pointer holds over time are the lock-cleared words of the trail
with repetitions dropped. `NoLater c a b` says that `a` went into the global
pointer no later than `b`; a load is fresh when it returns a value that is no
older than every value whose `cas_ptr` had succeeded before the load started,
and loads are ordered when none goes back behind an earlier one. -/

def globalValues (c : Config) : List Ptr :=
  (c.trail.map fun m => clearLock m.globalPtr).destutter (· ≠ ·)

def replicaValues (c : Config) (i : Nat) : List Ptr :=
  (c.trail.map fun m => clearLock (m.replicaPtrs i)).destutter (· ≠ ·)

def NoLater (c : Config) (a b : Ptr) : Prop :=
  ∃ i j : Nat, i ≤ j ∧ (globalValues c)[i]? = some a ∧ (globalValues c)[j]? = some b

def ReadsFresh (c : Config) : Prop :=
  ∀ w ∈ c.hist, ∀ r ∈ c.hist, ∀ oldVal newVal v, w.op = .casPtr oldVal newVal →
    w.ret = .cas true → r.op = .loadPtr → r.ret = .load v → w.stop < r.start →
    NoLater c newVal v

def ReadsOrdered (c : Config) : Prop :=
  ∀ r₁ ∈ c.hist, ∀ r₂ ∈ c.hist, ∀ v₁ v₂, r₁.op = .loadPtr → r₁.ret = .load v₁ →
    r₂.op = .loadPtr → r₂.ret = .load v₂ → r₁.stop < r₂.start → NoLater c v₁ v₂

/-- A `cas_ptr` that failed met, at some moment of the call, a global pointer
with another value. -/
def FailuresJustified (c : Config) : Prop :=
  ∀ w ∈ c.hist, ∀ oldVal newVal, w.op = .casPtr oldVal newVal → w.ret = .cas false →
    ∃ τ m, w.start ≤ τ ∧ τ ≤ w.stop ∧ c.trail[τ]? = some m ∧
      clearLock m.globalPtr ≠ oldVal

end ShmPcc.HelpUpdate
