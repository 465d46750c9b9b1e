import ShmPcc.Lib.History

/-!
# The broadcast buffer of stale cache lines, stale.h

`LockFreeRingBuffer`: machines push addresses of cache lines that have become stale, and
on each machine one thread processes all of them, in the order of the slots. `head` and
`tail` and the slots are shared; how far a machine has processed is its own `process_`,
which it publishes in its entry of `g_process`, for `recycle_stale` to find the slots that
all machines have passed. `recycle_stale` starts its minimum at 0, runs over the entries
below the id of its own machine, and reads them two at a time; here each entry is read in
a step of its own, which gives every outcome of the reads in pairs.

Each access of `head`, `tail`, a slot and an entry of `g_process` is one step. Thread `t`
below the number of machines is the processing thread of machine `t`; any thread pushes,
and any thread recycles, with the id of its machine.
-/

namespace ShmPcc.StaleRing

open Function

structure Mem where
  head : Nat
  tail : Nat
  buffer : Nat → Nat
  gProcess : Nat → Nat

inductive Op where
  | push (addr : Nat)
  | process
  | recycleStale (workerMachineId : Nat)

inductive Pc where
  | idle
  -- push
  | loadHead (addr : Nat)
  | loadTail (addr head : Nat)
  | claim (addr head : Nat)
  | fill (addr head : Nat)
  -- process
  | compareHead
  | wait
  | take
  | publish (addr : Nat)
  -- recycle_stale
  | scan (workerMachineId i minProcess : Nat)
  | begin (minProcess : Nat)
  | clear (i minProcess : Nat)
  | advance (minProcess : Nat)
deriving DecidableEq

/-- A thread with the `process_` of its machine. -/
structure Local where
  pc : Pc
  process : Nat
deriving DecidableEq

/-- An `int` assigned a `size_t`, where it is used as a `size_t` again. -/
def asInt (x : Nat) : Nat := if x % 2 ^ 32 < 2 ^ 31 then x % 2 ^ 32 else x % 2 ^ 32 + (2 ^ 64 - 2 ^ 32)

section

variable (size : Nat)

def nextIndex (i : Nat) : Nat := (i + 1) &&& (size - 1)

/-- The loop of `recycle_stale` over the entries of `g_process`, at `i`. -/
def scanFrom (workerMachineId i minProcess : Nat) : Pc :=
  if i < workerMachineId then .scan workerMachineId i minProcess else .begin minProcess

/-- The loop of `recycle_stale` over the slots, at `i`. -/
def clearFrom (i minProcess : Nat) : Pc := if i ≠ minProcess then .clear i minProcess else .advance minProcess

/-- Only the processing thread of a machine calls `process`. -/
def call (machines t : Nat) (op : Op) (l : Local) (m : Mem) : Option (Local × Mem) :=
  match l.pc, op with
  | .idle, .push addr => some ({ l with pc := .loadHead addr }, m)
  | .idle, .process => if t < machines then some ({ l with pc := .compareHead }, m) else none
  | .idle, .recycleStale workerMachineId => some ({ l with pc := scanFrom workerMachineId 0 0 }, m)
  | _, _ => none

def run (t : Nat) (l : Local) (m : Mem) : Option (Local × Mem) :=
  match l.pc with
  | .idle => none
  | .loadHead addr => some ({ l with pc := .loadTail addr m.head }, m)
  | .loadTail addr head =>
    -- the buffer is full
    if nextIndex size head = m.tail then some ({ l with pc := .idle }, m)
    else some ({ l with pc := .claim addr head }, m)
  | .claim addr head =>
    if m.head = head then some ({ l with pc := .fill addr head }, { m with head := nextIndex size head })
    else some ({ l with pc := .loadHead addr }, m)
  | .fill addr head =>
    some ({ l with pc := .idle }, { m with buffer := update m.buffer head addr })
  | .compareHead => some ({ l with pc := if l.process = m.head then .idle else .wait }, m)
  | .wait => some ({ l with pc := if m.buffer l.process = 0 then .wait else .take }, m)
  | .take => some (⟨.publish (m.buffer l.process), nextIndex size l.process⟩, m)
  | .publish _ =>
    some ({ l with pc := .idle }, { m with gProcess := update m.gProcess t l.process })
  | .scan workerMachineId i minProcess =>
    some ({ l with pc := scanFrom workerMachineId (i + 1) (min minProcess (m.gProcess i)) }, m)
  | .begin minProcess => some ({ l with pc := clearFrom (asInt m.tail) minProcess }, m)
  | .clear i minProcess =>
    some ({ l with pc := clearFrom (asInt (nextIndex size i)) minProcess },
      { m with buffer := update m.buffer i 0 })
  | .advance minProcess => some ({ l with pc := .idle }, { m with tail := minProcess })

def machine (machines : Nat) : Machine Mem Local Op := ⟨call machines, run size⟩

end

/-! ## What has happened -/

/-- The slots that were claimed, each with the address it was claimed for, and what
`process` has returned on each machine. -/
structure History where
  claims : List (Nat × Nat)
  results : Nat → List Nat

def log (t : Nat) (l : Local) (_ : Mem) (l' : Local) (h : History) : History :=
  match l.pc, l'.pc with
  | .claim _ _, .fill addr head => { h with claims := h.claims ++ [(head, addr)] }
  | .publish addr, _ => { h with results := update h.results t (h.results t ++ [addr]) }
  | _, _ => h

/-- The buffer as `create_stale_list` finds it in zeroed memory. -/
def fresh (s : Sys (Mem × History) Local) : Prop :=
  s.mem = (⟨0, 0, fun _ => 0, fun _ => 0⟩, ⟨[], fun _ => []⟩) ∧ ∀ t, s.loc t = ⟨.idle, 0⟩

section

variable (machines : Nat) (h : History)

/-- Each machine has processed the address that the slot was claimed for as the `j`-th. -/
def History.Processed (j : Nat) : Prop := ∀ k < machines, j < (h.results k).length

/-- The slot has been in use, and each machine has processed all it was used for. -/
def History.Consumed (i : Nat) : Prop :=
  (∃ j a : Nat, h.claims[j]? = some (i, a)) ∧ ∀ j a : Nat, h.claims[j]? = some (i, a) → h.Processed machines j

end

/-- Index `i` is among those from `a` on and before `b`, around the buffer. -/
def Between (size a b i : Nat) : Prop := i < size ∧ (i + size - a) % size < (b + size - a) % size

end ShmPcc.StaleRing
