import ShmPcc.Lib.Machine

/-!
# The software lock of soft_lock.cc

A bakery lock for clients on different machines: no atomic read-modify-write, only
loads and stores of the two arrays `choosing` and `number`. A client takes a ticket
larger than the tickets it sees, and then waits for each other client in turn, first
until that one is not choosing, then until its ticket is none or not the smaller one.

Each load and each store is one step. The condition of the second waiting loop loads
the ticket of the other client up to three times and the own ticket up to two times;
the own ticket does not change meanwhile, so the order of the two loads of one
comparison is no matter. The fences add nothing between sequentially consistent
steps, and the functions that bypass the cache make the same accesses as the others.
-/

namespace ShmPcc.SoftLock

open Function

/-- `soft_lock_t` -/
structure Mem where
  choosing : Nat → Nat
  number : Nat → Nat

/-- A `uint32_t` as an `int`. -/
def toInt (x : Nat) : Int := if x < 2 ^ 31 then x else x - 2 ^ 32

def toUint32 (x : Int) : Nat := (x % 2 ^ 32).toNat

inductive Pc where
  | idle
  | choose
  | scan (i : Nat) (maxNum : Int)
  | store (maxNum : Int)
  | chosen
  | waitChoosing (j : Nat)
  -- number[j] != 0
  | waitNumber (j : Nat)
  -- number[j] < number[id]
  | lessOther (j : Nat)
  | lessOwn (j other : Nat)
  -- number[j] == number[id] && j < id
  | sameOther (j : Nat)
  | sameOwn (j other : Nat)
  | critical
  | unlock
deriving DecidableEq

inductive Op where
  | shmLockCrossMachineBypassCache
  | shmUnlockCrossMachineBypassCache
  | shmLockCrossMachine
  | shmUnlockCrossMachine

section

variable (numClients : Nat)

/-- The loop over the tickets, at `i`. -/
def scanFrom (i : Nat) (maxNum : Int) : Pc := if i < numClients then .scan i maxNum else .store maxNum

/-- The loop over the clients to wait for, at `j`. -/
def waitFrom (j : Nat) : Pc := if j < numClients then .waitChoosing j else .critical

/-- Each client alternates between lock and unlock. -/
def call (id : Nat) (op : Op) (pc : Pc) (m : Mem) : Option (Pc × Mem) :=
  if id < numClients then
    match op, pc with
    | .shmLockCrossMachineBypassCache, .idle | .shmLockCrossMachine, .idle => some (.choose, m)
    | .shmUnlockCrossMachineBypassCache, .critical | .shmUnlockCrossMachine, .critical =>
      some (.unlock, m)
    | _, _ => none
  else none

def run (id : Nat) : Pc → Mem → Option (Pc × Mem)
  | .idle, _ => none
  | .choose, m =>
    some (scanFrom numClients 0 0, { m with choosing := update m.choosing id 1 })
  | .scan i maxNum, m =>
    let num := toInt (m.number i)
    some (scanFrom numClients (i + 1) (if num > maxNum then num else maxNum), m)
  | .store maxNum, m =>
    some (.chosen, { m with number := update m.number id (toUint32 (maxNum + 1)) })
  | .chosen, m =>
    some (waitFrom numClients 0, { m with choosing := update m.choosing id 0 })
  | .waitChoosing j, m => some (if m.choosing j ≠ 0 then .waitChoosing j else .waitNumber j, m)
  | .waitNumber j, m =>
    some (if m.number j ≠ 0 then .lessOther j else waitFrom numClients (j + 1), m)
  | .lessOther j, m => some (.lessOwn j (m.number j), m)
  | .lessOwn j other, m => some (if other < m.number id then .waitNumber j else .sameOther j, m)
  | .sameOther j, m => some (.sameOwn j (m.number j), m)
  | .sameOwn j other, m =>
    some (if other = m.number id ∧ j < id then .waitNumber j else waitFrom numClients (j + 1), m)
  | .critical, _ => none
  | .unlock, m => some (.idle, { m with number := update m.number id 0 })

def machine : Machine Mem Pc Op where
  call := call numClients
  run := run numClients

end

/-- `SoftLock::SoftLock` clears the lock. -/
def fresh (s : Sys Mem Pc) : Prop :=
  s.mem = ⟨fun _ => 0, fun _ => 0⟩ ∧ ∀ u, s.loc u = .idle

/-- The client is past lock and before unlock. -/
def Pc.inside : Pc → Bool
  | .critical | .unlock => true
  | _ => false

/-- The ticket the client is about to take is below 2^31. -/
def Pc.small : Pc → Bool
  | .store maxNum => maxNum + 1 < 2 ^ 31
  | _ => true

def smallTickets (s : Sys Mem Pc) (a : Act Op) : Prop := (s.loc a.thread).small = true

instance (s : Sys Mem Pc) (a : Act Op) : Decidable (smallTickets s a) :=
  inferInstanceAs (Decidable (_ = true))

end ShmPcc.SoftLock
