import ShmPcc.Lib.Fresh
import ShmPcc.Lib.Machine

/-!
# The replicated root of BwTree, built with OPT_ROOT_READ

`global_root_id` is the node id of the root, and every thread has a copy of it
in `cached_root_id`. The head of the root's delta chain is also kept in a
pointer that is replicated by `HelpUpdate`, so that `GetNode` of the root does not
have to load `mapping_table`. Installers bring the pointer up to date in the loop
of `CatchUpRootPointer`.

Each load, store and CAS of `global_root_id`, of a `cached_root_id` and of
`mapping_table` is one access, and so are `load_ptr` and `cas_ptr`: the replicas
are one register here. `GetNode` is the one with `bypass_cache = true`. A node is a
name: the first node of a node id, or one that a caller of
`InstallNodeToReplace` made.

The fields below the line in `Mem` are history. `installed` are the nodes of a
mapping table entry in the order of their installation, `returned` is the last
place in that order whose `InstallNodeToReplace` has returned true, and `answers`
are the results of `GetNode` with the value of `returned` when it was called.
-/

namespace ShmPcc.BwTreeRoot

open Function

inductive Node where
  | first (nodeId : Nat)
  | made (i : Nat)
deriving DecidableEq

structure Answer where
  nodeId : Nat
  node : Node
  floor : Nat
deriving DecidableEq

structure Mem where
  globalRootId : Nat
  cachedRootId : Nat → Nat
  mappingTable : Nat → Node
  /-- The register behind `root_help_update`. -/
  rootPtr : Node
  -- history
  made : Fresh
  installed : Nat → List Node
  returned : Nat → Nat
  answers : List Answer

/-- A tree with root `r`, after `ConfigureRootPointerReplicas`. -/
def Mem.new (r : Nat) : Mem where
  globalRootId := r
  cachedRootId _ := r
  mappingTable nodeId := .first nodeId
  rootPtr := .first r
  made := .new
  installed nodeId := [.first nodeId]
  returned _ := 0
  answers := []

/-- What a caller of `CatchUpRootPointer` does after it: return from
`InstallNodeToReplace`, having installed at `place`, or go on in
`InstallRootNode`. -/
inductive After where
  | node (place : Nat)
  | root
deriving DecidableEq

inductive Pc where
  | idle
  | installCas (nodeId : Nat) (node prev : Node)
  | rootCheck (nodeId place : Nat)
  | catchUp (after : After) (nodeId : Nat)
  | desiredLoad (after : After) (nodeId : Nat)
  | currentLoad (after : After) (nodeId : Nat) (desired : Node)
  | casPtr (after : After) (nodeId : Nat) (current desired : Node)
  | rootCas (oldRootId newRootId : Nat)
  | rootReload
  | rootAdopt (tmpRootId : Nat)
  | rootStore (newRootId i : Nat)
  | getCached (nodeId floor : Nat)
  | getGlobal (nodeId floor : Nat)
  | getPtr (nodeId floor : Nat)
  | recheckCached (nodeId floor : Nat) (rootPtr : Node)
  | recheckGlobal (nodeId floor : Nat) (rootPtr : Node)
  | getTable (nodeId floor : Nat)
deriving DecidableEq

/-- The thread is inside `InstallNodeToReplace` or `InstallRootNode`. -/
def Pc.installing : Pc → Bool
  | .idle | .getCached .. | .getGlobal .. | .getPtr .. | .recheckCached .. | .recheckGlobal ..
  | .getTable .. => false
  | _ => true

inductive Op where
  | installNodeToReplace (nodeId : Nat) (prev : Node)
  | installRootNode (oldRootId newRootId : Nat)
  | getNode (nodeId : Nat)

variable (threadNum : Nat)

def call (u : Nat) (op : Op) : Pc → Mem → Option (Pc × Mem)
  | .idle, m =>
    match op with
    | .installNodeToReplace nodeId prev =>
      some (.installCas nodeId (.made m.made.count) prev, { m with made := m.made.draw u })
    | .installRootNode oldRootId newRootId => some (.rootCas oldRootId newRootId, m)
    | .getNode nodeId => some (.getCached nodeId (m.returned nodeId), m)
  | _, _ => none

/-- `InstallNodeToReplace` returns true. -/
def Mem.returnTrue (m : Mem) (nodeId place : Nat) : Mem :=
  { m with returned := update m.returned nodeId (max (m.returned nodeId) place) }

/-- `GetNode` returns. -/
def Mem.answer (m : Mem) (nodeId floor : Nat) (node : Node) : Mem :=
  { m with answers := m.answers ++ [⟨nodeId, node, floor⟩] }

/-- The node is not in the hands of its maker any more. -/
def Mem.settle (m : Mem) : Node → Mem
  | .first _ => m
  | .made i => { m with made := m.made.settle i }

/-- `CatchUpRootPointer` returns. -/
def caughtUp (after : After) (nodeId : Nat) (m : Mem) : Pc × Mem :=
  match after with
  | .node place => (.idle, m.returnTrue nodeId place)
  | .root => (.rootStore nodeId 0, m)

/-- The next access of thread `u`. -/
def run (u : Nat) : Pc → Mem → Option (Pc × Mem)
  | .idle, _ => none
  | .installCas nodeId node prev, m =>
    if m.mappingTable nodeId = prev then
      some (.rootCheck nodeId (m.installed nodeId).length, { m.settle node with
        mappingTable := update m.mappingTable nodeId node
        installed := update m.installed nodeId (m.installed nodeId ++ [node]) })
    else some (.idle, m.settle node)
  | .rootCheck nodeId place, m =>
    if nodeId = m.globalRootId then some (.catchUp (.node place) nodeId, m)
    else some (.idle, m.returnTrue nodeId place)
  | .catchUp after nodeId, m =>
    if m.globalRootId = nodeId then some (.desiredLoad after nodeId, m)
    else some (caughtUp after nodeId m)
  | .desiredLoad after nodeId, m => some (.currentLoad after nodeId (m.mappingTable nodeId), m)
  | .currentLoad after nodeId desired, m =>
    if m.rootPtr = desired then some (caughtUp after nodeId m)
    else some (.casPtr after nodeId m.rootPtr desired, m)
  | .casPtr after nodeId current desired, m =>
    some (.catchUp after nodeId,
      if m.rootPtr = current then { m with rootPtr := desired } else m)
  | .rootCas oldRootId newRootId, m =>
    if m.globalRootId = oldRootId then
      some (.catchUp .root newRootId, { m with globalRootId := newRootId })
    else some (.rootReload, m)
  | .rootReload, m => some (.rootAdopt m.globalRootId, m)
  | .rootAdopt tmpRootId, m =>
    some (.idle, { m with cachedRootId := update m.cachedRootId u tmpRootId })
  | .rootStore newRootId i, m =>
    if i < threadNum then
      some (.rootStore newRootId (i + 1),
        { m with cachedRootId := update m.cachedRootId i newRootId })
    else some (.idle, m)
  | .getCached nodeId floor, m =>
    if nodeId = m.cachedRootId u then some (.getGlobal nodeId floor, m)
    else some (.getTable nodeId floor, m)
  | .getGlobal nodeId floor, m =>
    if nodeId = m.globalRootId then some (.getPtr nodeId floor, m)
    else some (.getTable nodeId floor, m)
  | .getPtr nodeId floor, m => some (.recheckCached nodeId floor m.rootPtr, m)
  | .recheckCached nodeId floor rootPtr, m =>
    if nodeId = m.cachedRootId u then some (.recheckGlobal nodeId floor rootPtr, m)
    else some (.getTable nodeId floor, m)
  | .recheckGlobal nodeId floor rootPtr, m =>
    if nodeId = m.globalRootId then some (.idle, m.answer nodeId floor rootPtr)
    else some (.getTable nodeId floor, m)
  | .getTable nodeId floor, m =>
    some (.idle, m.answer nodeId floor (m.mappingTable nodeId))

def machine : Machine Mem Pc Op where
  call := call
  run := run threadNum

/-- A tree with idle threads. -/
def fresh (r : Nat) (s : Sys Mem Pc) : Prop := s.mem = Mem.new r ∧ ∀ u, s.loc u = .idle

end ShmPcc.BwTreeRoot
