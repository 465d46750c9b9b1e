import ShmPcc.Lib.Machine

/-!
# The garbage collection of BwTree, built with NO_CC and OPT_GC

Worker threads have the ids `0 .. thread_num - 1`, which are their `gc_id`s. An
operation publishes the epoch in its `last_active_epoch` when it joins and when
it leaves. `AddGarbageNode` appends a node with the current epoch to the
thread's own list, and `PerformGC` frees from the front of that list what has an
epoch below the thread's `minimun_epoch`. One more thread runs the rounds of
`IncreaseEpoch`: it advances the epoch, collects the minimum of the
`last_active_epoch`s while it overwrites each with the new epoch, and hands the
minimum to every thread.

Each load and store of `epoch`, `last_active_epoch` and `minimun_epoch` is one
access; `epoch++` is two. The lists are private to their threads, so an access
to a list is grouped with the one before it, and each free is an access of its
own. What is kept for statistics only (the byte estimates) is left out, and so is
the worker that flushes nodes before they are freed.

The fields below the line in `Mem` are history, as in the collector of lsmalloc:
`inside` says which threads are between a finished `JoinEpoch` and the call of
`LeaveEpoch` and how many nodes had been added when it finished, `serial` is the
place of a node in the order of its `AddGarbageNode`.
-/

namespace ShmPcc.BwTreeGc

open Function

/-- `GC_NODE_COUNT_THREADHOLD` -/
def gcNodeCountThreshold : Nat := 1024

def uint64Max : Nat := 2 ^ 64 - 1

structure GarbageNode where
  deleteEpoch : Nat
  nodeP : Nat
  serial : Nat
deriving DecidableEq

/-- A node that was freed, with the operations that were open then. -/
structure Free where
  node : GarbageNode
  inside : Nat → Option Nat

structure Mem where
  epoch : Nat
  lastActiveEpoch : Nat → Nat
  minimunEpoch : Nat → Nat
  /-- The list behind `header`; `node_count` is its length. -/
  garbage : Nat → List GarbageNode
  -- history
  inside : Nat → Option Nat
  deleteEpochs : List Nat
  freed : List Free

def Mem.new : Mem where
  epoch := 0
  lastActiveEpoch _ := uint64Max
  minimunEpoch _ := 0
  garbage _ := []
  inside _ := none
  deleteEpochs := []
  freed := []

inductive Pc where
  | idle
  | joinLoad
  | joinStore (epoch : Nat)
  | leaveLoad
  | leaveStore (epoch : Nat)
  | addLoad (nodeP : Nat)
  | addLink (node : GarbageNode)
  | gcLoad
  | gcFree (minEpoch : Nat)
  | tickLoad
  | tickStore (epoch : Nat)
  | tickRead (i minEpoch : Nat)
  | tickReload (i minEpoch : Nat)
  | tickWrite (i minEpoch epoch : Nat)
  | tickSpread (i minEpoch : Nat)
deriving DecidableEq

inductive Op where
  | joinEpoch
  | leaveEpoch
  | addGarbageNode (nodeP : Nat)
  | performGC
  | increaseEpoch

variable (threadNum : Nat)

/-- Workers call the operations on their own metadata; the thread behind them
runs the rounds. -/
def call (u : Nat) (op : Op) : Pc → Mem → Option (Pc × Mem)
  | .idle, m =>
    match op with
    | .joinEpoch => if u < threadNum then some (.joinLoad, m) else none
    | .leaveEpoch =>
      if u < threadNum then
        some (.leaveLoad, { m with inside := update m.inside u none })
      else none
    | .addGarbageNode nodeP => if u < threadNum then some (.addLoad nodeP, m) else none
    | .performGC => if u < threadNum then some (.gcLoad, m) else none
    | .increaseEpoch => if u = threadNum then some (.tickLoad, m) else none
  | _, _ => none

/-- The next access of thread `u`. -/
def run (u : Nat) : Pc → Mem → Option (Pc × Mem)
  | .idle, _ => none
  | .joinLoad, m => some (.joinStore m.epoch, m)
  | .joinStore epoch, m =>
    some (.idle, { m with
      lastActiveEpoch := update m.lastActiveEpoch u epoch
      inside := update m.inside u (some m.deleteEpochs.length) })
  | .leaveLoad, m => some (.leaveStore m.epoch, m)
  | .leaveStore epoch, m =>
    some (.idle, { m with lastActiveEpoch := update m.lastActiveEpoch u epoch })
  | .addLoad nodeP, m =>
    some (.addLink ⟨m.epoch, nodeP, m.deleteEpochs.length⟩,
      { m with deleteEpochs := m.deleteEpochs ++ [m.epoch] })
  | .addLink node, m =>
    some (if gcNodeCountThreshold < (m.garbage u).length + 1 then .gcLoad else .idle,
      { m with garbage := update m.garbage u (m.garbage u ++ [node]) })
  | .gcLoad, m => some (.gcFree (m.minimunEpoch u), m)
  | .gcFree minEpoch, m =>
    match m.garbage u with
    | [] => some (.idle, m)
    | node :: rest =>
      if node.deleteEpoch < minEpoch then
        some (.gcFree minEpoch, { m with
          garbage := update m.garbage u rest
          freed := m.freed ++ [⟨node, m.inside⟩] })
      else some (.idle, m)
  | .tickLoad, m => some (.tickStore m.epoch, m)
  | .tickStore epoch, m =>
    some (.tickRead 0 uint64Max, { m with epoch := (epoch + 1) % 2 ^ 64 })
  | .tickRead i minEpoch, m =>
    if i < threadNum then some (.tickReload i (min (m.lastActiveEpoch i) minEpoch), m)
    else some (.tickSpread 0 minEpoch, m)
  | .tickReload i minEpoch, m => some (.tickWrite i minEpoch m.epoch, m)
  | .tickWrite i minEpoch epoch, m =>
    some (.tickRead (i + 1) minEpoch,
      { m with lastActiveEpoch := update m.lastActiveEpoch i epoch })
  | .tickSpread i minEpoch, m =>
    if i < threadNum then
      some (.tickSpread (i + 1) minEpoch,
        { m with minimunEpoch := update m.minimunEpoch i minEpoch })
    else some (.idle, m)

def machine : Machine Mem Pc Op where
  call := call threadNum
  run := run threadNum

/-- A new tree with idle threads. -/
def fresh (s : Sys Mem Pc) : Prop := s.mem = Mem.new ∧ ∀ u, s.loc u = .idle

end ShmPcc.BwTreeGc
