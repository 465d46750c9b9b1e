import Mathlib

/-!
# The garbage list of a BwTree thread

`GCMetaData` is the head of a linked list of garbage nodes: a `header` in front of the first
one, `last_p` at the last one, and `node_count`. `AddGarbageNode` links a node behind
`last_p`; `PerformGC` frees from the front what has an epoch below `min_epoch`, one node
after the other, or, where the flush worker is enabled, in batches: the nodes of a batch are
given to `SubmitAndWait` before any of them is freed.

Addresses are numbers and 0 is the null pointer. `nodes` are the `GarbageNode`s that exist,
the header among them; to use one that does not is `none`, as is a failed assertion. What
`SummarizeGCEpoch` returns is a parameter, `limit` is `GC_NODE_COUNT_THREADHOLD`, and a loop
along the list has `fuel`. What is kept for statistics only is left out, and so are the
caches that `OPT_IN_USE_FLAG` clears.
-/

namespace ShmPcc.PerformGc

open Function

structure GarbageNode where
  deleteEpoch : Nat
  nodeP : Nat
  nextP : Nat
deriving DecidableEq

/-- `SubmitAndWait` has returned for a batch, or a delta chain is freed. -/
inductive Event where
  | submit (nodes : List Nat)
  | free (nodeP : Nat)
deriving DecidableEq

/-- `GCMetaData` with the nodes behind it; `events` is history. -/
structure Mem where
  nodes : Nat → Option GarbageNode
  lastP : Nat
  nodeCount : Nat
  events : List Event

/-- The address of `header`. -/
def headerP : Nat := 1

def Mem.new : Mem where
  nodes := update (fun _ => none) headerP (some ⟨0, 0, 0⟩)
  lastP := headerP
  nodeCount := 0
  events := []

/-- `reclaim_one` -/
def reclaimOne (garbageP : Nat) (m : Mem) : Option Mem := do
  let garbage ← m.nodes garbageP
  let header ← m.nodes headerP
  if m.nodeCount = 0 then none
  else some { m with
    nodes := update (update m.nodes headerP
      (some { header with nextP := garbage.nextP })) garbageP none
    nodeCount := m.nodeCount - 1
    events := m.events ++ [.free garbage.nodeP] }

/-- `reclaim_one(first_p); first_p = header_p->next_p;` -/
def reclaimFirst (firstP : Nat) (m : Mem) : Option (Nat × Mem) := do
  let m ← reclaimOne firstP m
  let header ← m.nodes headerP
  some (header.nextP, m)

/-- `firstP` is not null, and its node is to be reclaimed. -/
def reclaimable (minEpoch firstP : Nat) (m : Mem) : Option Bool :=
  if firstP = 0 then some false else (m.nodes firstP).map fun node => node.deleteEpoch < minEpoch

/-- The loop without the flush worker. -/
def plainLoop (minEpoch : Nat) : Nat → Nat → Mem → Option (Nat × Mem)
  | 0, _, _ => none
  | fuel + 1, firstP, m => do
    if ← reclaimable minEpoch firstP m then do
      let (firstP, m) ← reclaimFirst firstP m
      plainLoop minEpoch fuel firstP m
    else some (firstP, m)

/-- `nodes_to_flush`, with room for so many more. -/
def collectBatch (minEpoch : Nat) (m : Mem) : Nat → Nat → Option (List Nat)
  | 0, _ => some []
  | room + 1, nodeP => do
    if ← reclaimable minEpoch nodeP m then do
      let node ← m.nodes nodeP
      let rest ← collectBatch minEpoch m room node.nextP
      some (node.nodeP :: rest)
    else some []

def reclaimBatch : Nat → Nat → Mem → Option (Nat × Mem)
  | 0, firstP, m => some (firstP, m)
  | batchCount + 1, firstP, m => do
    let (firstP, m) ← reclaimFirst firstP m
    reclaimBatch batchCount firstP m

/-- The loop with the flush worker. -/
def batchLoop (limit minEpoch : Nat) : Nat → Nat → Mem → Option (Nat × Mem)
  | 0, _, _ => none
  | fuel + 1, firstP, m => do
    if ← reclaimable minEpoch firstP m then do
      let batch ← collectBatch minEpoch m limit firstP
      let (firstP, m) ← reclaimBatch batch.length firstP { m with events := m.events ++ [.submit batch] }
      batchLoop limit minEpoch fuel firstP m
    else some (firstP, m)

def performGC (isEnabled : Bool) (limit fuel minEpoch : Nat) (m : Mem) : Option Mem := do
  let header ← m.nodes headerP
  let (firstP, m) ← if isEnabled then batchLoop limit minEpoch fuel header.nextP m
    else plainLoop minEpoch fuel header.nextP m
  some (if firstP = 0 then { m with lastP := headerP } else m)

/-- The part of `AddGarbageNode` that appends the node at `p`. -/
def append (p deleteEpoch nodeP : Nat) (m : Mem) : Option Mem := do
  let last ← m.nodes m.lastP
  some { m with
    nodes := update (update m.nodes p (some ⟨deleteEpoch, nodeP, 0⟩)) m.lastP
      (some { last with nextP := p })
    lastP := p
    nodeCount := m.nodeCount + 1 }

/-- `AddGarbageNode`, where the allocator returns `p`. -/
def addGarbageNode (isEnabled : Bool) (limit fuel minEpoch p deleteEpoch nodeP : Nat) (m : Mem) :
    Option Mem := do
  let m ← append p deleteEpoch nodeP m
  if limit < m.nodeCount then performGC isEnabled limit fuel minEpoch m else some m

end ShmPcc.PerformGc
