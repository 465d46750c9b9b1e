import ShmPcc.Lib.Machine
import ShmPcc.Lib.Monitor

/-!
# The flush worker of the BwTree's garbage collector

`GCFlushWorker` has one thread that writes back the nodes of a batch before they are
freed. A thread with a batch calls `SubmitAndWait`: it waits until no request is ready,
puts its batch into `pending_nodes`, notifies, and waits until a request is done. The
worker takes the batch, flushes its nodes without the mutex, and then says in one
critical section that no request is ready and that one is done. Both sides use one mutex
and one condition variable.

Thread 0 is the worker. A step takes or gives up the mutex, checks the condition of a
wait, or does what a thread does between two of those; the flush of one node is a step.
A wait whose condition does not hold gives up the mutex and sleeps. `notifyOne w` is the
notification that wakes `w`, and `spurious` a wake-up without one. The destructor, which
sets `stop`, is not called.

The fields below the line in `Mem` are history: the batches in the order in which they
were put into `pending_nodes`, how many of them the worker has taken, the nodes that were
flushed, and for which of the batches the call has returned.
-/

namespace ShmPcc.GcFlush

variable {N : Type}

structure Mem (N : Type) where
  enabled : Bool
  stop : Bool
  requestReady : Bool
  requestDone : Bool
  /-- Pointers to nodes, of which some may be null. -/
  pendingNodes : List (Option N)
  /-- `mutex` and `cv` -/
  monitor : Monitor
  -- history
  submitted : List (List (Option N))
  taken : Nat
  flushed : List N
  returned : List Nat

inductive Pc (N : Type) where
  | idle
  -- SubmitAndWait; from `notify` on the batch is known by its number
  | lock (nodes : List (Option N))
  | readyCheck (nodes : List (Option N))
  | readySleep (nodes : List (Option N))
  | fill (nodes : List (Option N))
  | notify (batch : Nat)
  | doneCheck (batch : Nat)
  | doneSleep (batch : Nat)
  | unlock (batch : Nat)
  -- ThreadFunc
  | workLock
  | workCheck
  | workSleep
  | workBreak
  | ended
  | workSwap
  | workUnlock (nodes : List (Option N))
  | flush (nodes : List (Option N))
  | doneLock
  | doneSet
  | doneUnlock
  | notifyAll

inductive Op (N : Type) where
  | submitAndWait (nodes : List (Option N))
  | notifyOne (w : Nat)
  | spurious

namespace Mem

def setMonitor (m : Mem N) (x : Monitor) : Mem N := { m with monitor := x }

def release (m : Mem N) : Mem N := m.setMonitor m.monitor.release

def wait (m : Mem N) (u : Nat) : Mem N := m.setMonitor (m.monitor.wait u)

/-- The batch goes into `pending_nodes`. -/
def submit (m : Mem N) (nodes : List (Option N)) : Mem N :=
  { m with
    pendingNodes := nodes
    requestDone := false
    requestReady := true
    submitted := m.submitted ++ [nodes] }

/-- `nodes.swap(pending_nodes)`, where `nodes` is empty. -/
def swap (m : Mem N) : Mem N := { m with pendingNodes := [], taken := m.taken + 1 }

/-- `FlushNodeForGC` -/
def flushNodeForGC (m : Mem N) : Option N → Mem N
  | none => m
  | some node => { m with flushed := m.flushed ++ [node] }

def setDone (m : Mem N) : Mem N := { m with requestReady := false, requestDone := true }

end Mem

def call (u : Nat) : Op N → Pc N → Mem N → Option (Pc N × Mem N)
  | .submitAndWait nodes, .idle, m =>
    if m.enabled = false ∨ nodes.isEmpty = true then some (.idle, m) else some (.lock nodes, m)
  | .notifyOne w, .notify batch, m =>
    (m.monitor.wake w).map fun x => (.doneCheck batch, m.setMonitor x)
  | .spurious, pc, m => (m.monitor.wake u).map fun x => (pc, m.setMonitor x)
  | _, _, _ => none

def run (u : Nat) : Pc N → Mem N → Option (Pc N × Mem N)
  | .idle, _ => none
  | .lock nodes, m => (m.monitor.acquire u).map fun x => (.readyCheck nodes, m.setMonitor x)
  | .readyCheck nodes, m =>
    if m.requestReady = false then some (.fill nodes, m) else some (.readySleep nodes, m.wait u)
  | .readySleep nodes, m => (m.monitor.resume u).map fun x => (.readyCheck nodes, m.setMonitor x)
  | .fill nodes, m => some (.notify m.submitted.length, m.submit nodes)
  | .notify batch, m =>
    -- where there are waiters, one of them is chosen
    if m.monitor.waiting = [] then some (.doneCheck batch, m) else none
  | .doneCheck batch, m =>
    if m.requestDone = true then some (.unlock batch, m) else some (.doneSleep batch, m.wait u)
  | .doneSleep batch, m => (m.monitor.resume u).map fun x => (.doneCheck batch, m.setMonitor x)
  | .unlock batch, m => some (.idle, { m.release with returned := m.returned ++ [batch] })
  | .workLock, m => (m.monitor.acquire u).map fun x => (.workCheck, m.setMonitor x)
  | .workCheck, m =>
    if m.stop = true ∨ m.requestReady = true then
      if m.stop = true ∧ m.requestReady = false then some (.workBreak, m) else some (.workSwap, m)
    else some (.workSleep, m.wait u)
  | .workSleep, m => (m.monitor.resume u).map fun x => (.workCheck, m.setMonitor x)
  | .workBreak, m => some (.ended, m.release)
  | .ended, _ => none
  | .workSwap, m => some (.workUnlock m.pendingNodes, m.swap)
  | .workUnlock nodes, m => some (.flush nodes, m.release)
  | .flush [], m => some (.doneLock, m)
  | .flush (node :: rest), m => some (.flush rest, m.flushNodeForGC node)
  | .doneLock, m => (m.monitor.acquire u).map fun x => (.doneSet, m.setMonitor x)
  | .doneSet, m => some (.doneUnlock, m.setDone)
  | .doneUnlock, m => some (.notifyAll, m.release)
  | .notifyAll, m => some (.workLock, m.setMonitor m.monitor.notifyAll)

def machine (N : Type) : Machine (Mem N) (Pc N) (Op N) where
  call := call
  run := run

/-- The constructor of an enabled worker. -/
def new : Mem N where
  enabled := true
  stop := false
  requestReady := false
  requestDone := false
  pendingNodes := []
  monitor := .new
  submitted := []
  taken := 0
  flushed := []
  returned := []

def fresh (s : Sys (Mem N) (Pc N)) : Prop :=
  s.mem = new ∧ s.loc 0 = .workLock ∧ ∀ u, u ≠ 0 → s.loc u = .idle

/-- The nodes of some batches, one after the other. -/
def nodesOf (batches : List (List (Option N))) : List N := batches.flatten.reduceOption

end ShmPcc.GcFlush
