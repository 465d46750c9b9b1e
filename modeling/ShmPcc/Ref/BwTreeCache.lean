import ShmPcc.Lib.Fresh
import ShmPcc.Ref.BwTreeGc

/-!
# The cached mapping table of BwTree, built with OPT_IN_USE_FLAG

`mapping_table` maps a node id to the head of its delta chain, and every machine
has a cache of the table. `GetNode` with `bypass_cache = false` answers from the
cache of the thread's machine, unless what it finds there belongs to a leaf;
otherwise it loads `mapping_table` and updates the cache. Chains are replaced by
`InstallNodeToReplace`: a delta is put on top of the chain, or a consolidated
node takes the place of the whole chain, which is then handed to
`AddGarbageNode`. The collector is the one with `SummarizeGCEpoch`: `PerformGC`
takes the minimum of all `last_active_epoch`s itself, clears the node id in the
caches of all machines, and then frees the chain.

Each load, store and CAS of a shared location is one access, the test of the
node type in `GetNode` is one, and so is a free. The model keeps the chains, not
what is in them: a `Node` is a place in a chain, and freeing a chain frees all of
its nodes, as `FreeEpochDeltaChain` does. A freed chain is never made again: the
model has no reuse of addresses. Splits, merges and removed node ids are left
out.

The fields below the line in `Mem` are history. `inside` and `serial` are as in
the other collectors; `held` is what `GetNode` returned to the operation a thread
is in, and `made` are the chains made by consolidations, in the hands of a thread
until it has tried to install them.
-/

namespace ShmPcc.BwTreeCache

open BwTreeGc (gcNodeCountThreshold uint64Max)
open Function

/-- `DEFAULT_MACHINE_COUNT` -/
def defaultMachineCount : Nat := 16

/-- The chain a node id starts with, or one made by a consolidation. -/
inductive Chain where
  | first (nodeId : Nat)
  | made (i : Nat)
deriving DecidableEq

structure Node where
  chain : Chain
  depth : Nat
  isOnLeafDeltaChain : Bool
deriving DecidableEq

structure GarbageNode where
  deleteEpoch : Nat
  chain : Chain
  nodeId : Nat
  serial : Nat
deriving DecidableEq

structure Mem where
  epoch : Nat
  lastActiveEpoch : Nat → Nat
  garbage : Nat → List GarbageNode
  mappingTable : Nat → Node
  cachedMappingTable : Nat → Nat → Option Node
  -- history
  inside : Nat → Option Nat
  held : Nat → List Node
  /-- In the order of the epoch loads of `AddGarbageNode`. -/
  retired : List GarbageNode
  freed : List Chain
  made : Fresh

/-- Every node id has a chain of one node; `isLeaf` says which are leaves. -/
def Mem.new (isLeaf : Nat → Bool) : Mem where
  epoch := 0
  lastActiveEpoch _ := uint64Max
  garbage _ := []
  mappingTable nodeId := ⟨.first nodeId, 0, isLeaf nodeId⟩
  cachedMappingTable _ _ := none
  inside _ := none
  held _ := []
  retired := []
  freed := []
  made := .new

/-- `GetLocalCacheMappingTable()[node_id]` of the thread with this `gc_id` -/
def Mem.localCache (m : Mem) (gcId nodeId : Nat) : Option Node :=
  m.cachedMappingTable (gcId % defaultMachineCount) nodeId

/-- A store into the cache of one machine. -/
def Mem.setCache (m : Mem) (machine nodeId : Nat) (v : Option Node) : Mem :=
  { m with
    cachedMappingTable := update m.cachedMappingTable machine
      (update (m.cachedMappingTable machine) nodeId v) }

/-- `GetNode` returns. -/
def Mem.got (m : Mem) (u : Nat) (node : Node) : Mem :=
  { m with held := update m.held u (node :: m.held u) }

inductive Pc where
  | idle
  | joinLoad
  | joinStore (epoch : Nat)
  | leaveLoad
  | leaveStore (epoch : Nat)
  | cacheLoad (nodeId : Nat)
  | inspect (nodeId : Nat) (cached : Node)
  | tableLoad (nodeId : Nat)
  | catchupLoad (nodeId : Nat) (ret : Node)
  | catchupStore (nodeId : Nat) (ret : Node)
  | bypassLoad (nodeId : Nat)
  | bypassStore (nodeId : Nat) (ret : Node)
  | deltaCas (nodeId : Nat) (prev : Node)
  | replaceCas (nodeId : Nat) (node prev : Node)
  | addLoad (chain : Chain) (nodeId : Nat)
  | addLink (node : GarbageNode)
  | summarizeFirst
  | summarize (i minEpoch : Nat)
  | gcNext (minEpoch : Nat)
  | gcClear (minEpoch : Nat) (node : GarbageNode) (i : Nat)
  | tickLoad
  | tickStore (epoch : Nat)
deriving DecidableEq

inductive Op where
  | joinEpoch
  | leaveEpoch
  | getNode (nodeId : Nat) (bypassCache : Bool)
  /-- `InstallNodeToReplace` of a delta on top of `prev`. -/
  | installDelta (nodeId : Nat) (prev : Node)
  /-- `InstallNodeToReplace` of a consolidated node, with the `AddGarbageNode`
  that follows it. -/
  | consolidate (nodeId : Nat) (prev : Node)
  | performGC
  | increaseEpoch

variable (threadNum : Nat)

/-- Operations run from `JoinEpoch` to `LeaveEpoch`, and `GetNode` is called inside
them. The thread behind the workers advances the epoch. -/
def call (u : Nat) (op : Op) : Pc → Mem → Option (Pc × Mem)
  | .idle, m =>
    match op with
    | .joinEpoch => if u < threadNum ∧ m.inside u = none then some (.joinLoad, m) else none
    | .leaveEpoch =>
      if m.inside u = none then none
      else some (.leaveLoad, { m with
        inside := update m.inside u none
        held := update m.held u [] })
    | .getNode nodeId bypassCache =>
      if m.inside u = none then none
      else if bypassCache then some (.bypassLoad nodeId, m)
      else some (.cacheLoad nodeId, m)
    | .installDelta nodeId prev =>
      if u < threadNum then some (.deltaCas nodeId prev, m) else none
    | .consolidate nodeId prev =>
      if u < threadNum then
        some (.replaceCas nodeId ⟨.made m.made.count, 0, prev.isOnLeafDeltaChain⟩ prev,
          { m with made := m.made.draw u })
      else none
    | .performGC => if u < threadNum then some (.summarizeFirst, m) else none
    | .increaseEpoch => if u = threadNum then some (.tickLoad, m) else none
  | _, _ => none

/-- The chain `c` is not in the hands of the thread that made it any more. -/
def Mem.settle (m : Mem) : Chain → Mem
  | .first _ => m
  | .made i => { m with made := m.made.settle i }

/-- The next access of thread `u`. -/
def run (u : Nat) : Pc → Mem → Option (Pc × Mem)
  | .idle, _ => none
  | .joinLoad, m => some (.joinStore m.epoch, m)
  | .joinStore epoch, m =>
    some (.idle, { m with
      lastActiveEpoch := update m.lastActiveEpoch u epoch
      inside := update m.inside u (some m.retired.length) })
  | .leaveLoad, m => some (.leaveStore m.epoch, m)
  | .leaveStore epoch, m =>
    some (.idle, { m with lastActiveEpoch := update m.lastActiveEpoch u epoch })
  | .cacheLoad nodeId, m =>
    match m.localCache u nodeId with
    | some cached => some (.inspect nodeId cached, m)
    | none => some (.tableLoad nodeId, m)
  | .inspect nodeId cached, m =>
    if cached.isOnLeafDeltaChain then some (.tableLoad nodeId, m)
    else some (.idle, m.got u cached)
  | .tableLoad nodeId, m => some (.catchupLoad nodeId (m.mappingTable nodeId), m)
  | .catchupLoad nodeId ret, m =>
    if m.localCache u nodeId = some ret then some (.idle, m.got u ret)
    else some (.catchupStore nodeId ret, m)
  | .catchupStore nodeId ret, m =>
    some (.idle, (m.setCache (u % defaultMachineCount) nodeId (some ret)).got u ret)
  | .bypassLoad nodeId, m => some (.bypassStore nodeId (m.mappingTable nodeId), m)
  | .bypassStore nodeId ret, m =>
    some (.idle, (m.setCache (u % defaultMachineCount) nodeId (some ret)).got u ret)
  | .deltaCas nodeId prev, m =>
    some (.idle,
      if m.mappingTable nodeId = prev then
        { m with
          mappingTable := update m.mappingTable nodeId
            { prev with depth := prev.depth + 1 } }
      else m)
  | .replaceCas nodeId node prev, m =>
    if m.mappingTable nodeId = prev then
      some (.addLoad prev.chain nodeId, { m.settle node.chain with
        mappingTable := update m.mappingTable nodeId node })
    else some (.addLoad node.chain nodeId, m.settle node.chain)
  | .addLoad chain nodeId, m =>
    some (.addLink ⟨m.epoch, chain, nodeId, m.retired.length⟩,
      { m with retired := m.retired ++ [⟨m.epoch, chain, nodeId, m.retired.length⟩] })
  | .addLink node, m =>
    some (if gcNodeCountThreshold < (m.garbage u).length + 1 then .summarizeFirst else .idle,
      { m with garbage := update m.garbage u (m.garbage u ++ [node]) })
  | .summarizeFirst, m => some (.summarize 1 (m.lastActiveEpoch 0), m)
  | .summarize i minEpoch, m =>
    if i < threadNum then some (.summarize (i + 1) (min (m.lastActiveEpoch i) minEpoch), m)
    else some (.gcNext minEpoch, m)
  | .gcNext minEpoch, m =>
    match m.garbage u with
    | [] => some (.idle, m)
    | node :: rest =>
      if node.deleteEpoch < minEpoch then
        some (.gcClear minEpoch node 0, { m with garbage := update m.garbage u rest })
      else some (.idle, m)
  | .gcClear minEpoch node i, m =>
    if i < defaultMachineCount then
      some (.gcClear minEpoch node (i + 1), m.setCache i node.nodeId none)
    else some (.gcNext minEpoch, { m with freed := m.freed ++ [node.chain] })
  | .tickLoad, m => some (.tickStore m.epoch, m)
  | .tickStore epoch, m => some (.idle, { m with epoch := (epoch + 1) % 2 ^ 64 })

def machine : Machine Mem Pc Op where
  call := call threadNum
  run := run threadNum

/-- A tree with empty caches and idle threads. -/
def fresh (s : Sys Mem Pc) : Prop :=
  (∃ isLeaf, s.mem = Mem.new isLeaf) ∧ ∀ u, s.loc u = .idle

end ShmPcc.BwTreeCache
