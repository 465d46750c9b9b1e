import ShmPcc.Lib.Machine

/-!
# Garbage of other machines in the BwTree

`FreeEpochDeltaChain` frees a delta chain that no thread can reach any more. A base node is
one allocation, with the first chunk of its `AllocationMeta` in front of it, `GrowChunk` adds
chunks to that list, and the delta nodes on top of the base node lie in these chunks:
freeing the base node's list frees them all. A merge node has two chains below it and lies in
a chunk of its right one, as `PostLeafMergeNode` allocates it there. Remove and abort nodes
are allocations of their own, and what is below them is not freed with them.

Each machine has a pool of its own, at the address where `get_ptr_machine_index` looks for
it, and a chunk is allocated from the pool of the machine whose thread needed it. A call of
`FreeEpochDeltaChain` on a node of another machine's pool sends the node there, and the
handler there calls `FreeEpochDeltaChain` again. Messages may be handled in any order.

The switch of the source has a case for a leaf and a case for an inner node of each type,
which do the same.
-/

namespace ShmPcc.RemoteGc

/-- `GLOBAL_BASE`, `SHM_SIZE` and the number of machines. -/
structure Layout where
  globalBase : Nat
  shmSize : Nat
  machines : Nat

/-- Where the pool of machine `i` begins. -/
def Layout.localBase (L : Layout) (i : Nat) : Nat := L.globalBase + i * L.shmSize

/-- An allocation from the pool of machine `owner`. -/
structure Chunk (L : Layout) where
  owner : Nat
  start : Nat
  size : Nat
  owner_lt : owner < L.machines
  pos : 0 < size
  lower : L.localBase owner ≤ start
  upper : start + size ≤ L.localBase owner + L.shmSize

/-- A node, in the chunk where it lies. -/
structure Node (L : Layout) where
  chunk : Chunk L
  offset : Nat
  inside : offset < chunk.size

def Node.ptr {L : Layout} (n : Node L) : Nat := n.chunk.start + n.offset

inductive DeltaType where
  | insert
  | delete
  | split
deriving DecidableEq

inductive Chain (L : Layout) where
  /-- The base node is in the first chunk of its list. -/
  | base (node : Node L) (grown : List (Chunk L))
  | delta (type : DeltaType) (node : Node L) (child : Chain L)
  | merge (node : Node L) (child right : Chain L)
  | remove (chunk : Chunk L) (removedId : Nat)
  | abort (chunk : Chunk L)

variable {L : Layout}

/-- The node at the beginning of an allocation. -/
def Chunk.node (chunk : Chunk L) : Node L := ⟨chunk, 0, chunk.pos⟩

def Chain.node : Chain L → Node L
  | .base node _ | .delta _ node _ | .merge node _ _ => node
  | .remove chunk _ | .abort chunk => chunk.node

def getPtrMachineIndex (L : Layout) (ptr : Nat) : Int :=
  if L.globalBase ≤ ptr ∧ ptr < L.globalBase + L.shmSize * L.machines then
    ((ptr - L.globalBase) / L.shmSize : Nat)
  else -1

/-- What a pointer is freed to: the memkind pool, or the heap of the C library. -/
inductive Pool where
  | memkind
  | heap
deriving DecidableEq

/-- What a call does that is seen outside of the chain. -/
inductive Event (L : Layout) where
  | free (pool : Pool) (ptr : Nat)
  | invalidateNodeID (id : Nat)
  | sendMsg (owner : Nat) (chain : Chain L)

def ownsMemkindPointer (L : Layout) (me ptr : Nat) : Prop :=
  L.localBase me ≤ ptr ∧ ptr < L.localBase me + L.shmSize

instance (L : Layout) (me ptr : Nat) : Decidable (ownsMemkindPointer L me ptr) :=
  inferInstanceAs (Decidable (_ ∧ _))

/-- `MemoryManager::free`. -/
def free (me ptr : Nat) : Event L :=
  .free (if ownsMemkindPointer L me ptr then .memkind else .heap) ptr

/-- `AllocationMeta::Destroy`, on the list that begins at `first`. -/
def destroy (me : Nat) (first : Chunk L) (grown : List (Chunk L)) : List (Event L) :=
  (first :: grown).map fun chunk => free me chunk.start

/-- The machine that `ForwardRemoteEpochGCIfNeeded` sends the node to. -/
def forwardRemoteEpochGCIfNeeded (L : Layout) (me ptr : Nat) : Option Nat :=
  if L.machines ≤ 1 then none
  else
    let owner := getPtrMachineIndex L ptr
    if owner < 0 ∨ owner = me then none else some owner.toNat

/-- A call of `FreeEpochDeltaChain` on machine `me`, where `loop` is what its loop does. -/
def forwardOr (me : Nat) (chain : Chain L) (loop : List (Event L)) : List (Event L) :=
  match forwardRemoteEpochGCIfNeeded L me chain.node.ptr with
  | some owner => [.sendMsg owner chain]
  | none => loop

/-- The loop of `FreeEpochDeltaChain`, which tests the owner of no further node but where it
calls the function again. -/
def freeLoop (me : Nat) : Chain L → List (Event L)
  | .base node grown => destroy me node.chunk grown
  | .delta _ _ child => freeLoop me child
  | .merge _ child right =>
    forwardOr me child (freeLoop me child) ++ forwardOr me right (freeLoop me right)
  | .remove chunk removedId => [.invalidateNodeID removedId, free me chunk.start]
  | .abort chunk => [free me chunk.start]

def freeEpochDeltaChain (me : Nat) (chain : Chain L) : List (Event L) :=
  forwardOr me chain (freeLoop me chain)

/-! ## All machines -/

structure Release where
  machine : Nat
  pool : Pool
  ptr : Nat
deriving DecidableEq

structure Mem (L : Layout) where
  /-- The messages that are not handled yet, with their receivers. -/
  msgs : List (Nat × Chain L)
  released : List Release

def Event.msg? : Event L → Option (Nat × Chain L)
  | .sendMsg owner chain => some (owner, chain)
  | _ => none

def Event.release? (me : Nat) : Event L → Option Release
  | .free pool ptr => some ⟨me, pool, ptr⟩
  | _ => none

/-- A call on machine `me`, and what it leaves. -/
def Mem.call (m : Mem L) (me : Nat) (chain : Chain L) : Mem L :=
  let events := freeEpochDeltaChain me chain
  { msgs := m.msgs ++ events.filterMap Event.msg?
    released := m.released ++ events.filterMap (Event.release? me) }

/-- `HandleBwTreeRemoteGC` of the receiver, on message `k`. -/
def handle (k : Nat) (m : Mem L) : Option (Mem L) :=
  m.msgs[k]?.map fun x => { m with msgs := m.msgs.eraseIdx k }.call x.1 x.2

def machine (L : Layout) : Machine (Mem L) Unit Nat := Machine.ofSteps handle

/-- A chain is freed on machine `me`. -/
def called (me : Nat) (chain : Chain L) (s : Sys (Mem L) Unit) : Prop :=
  s.mem = (Mem.mk [] []).call me chain

/-- The releases of a chunk. -/
def Mem.releases (m : Mem L) (chunk : Chunk L) : List Release :=
  m.released.filter fun r => r.ptr = chunk.start

/-! ## The memory of a chain -/

namespace Chain

/-- The chunks that are to be released with a chain. -/
def chunks : Chain L → List (Chunk L)
  | .base node grown => node.chunk :: grown
  | .delta _ _ child => child.chunks
  | .merge _ child right => child.chunks ++ right.chunks
  | .remove chunk _ | .abort chunk => [chunk]

/-- The chunks in which a node on top of a chain is put: those of the base node that the low
key of the chain is in. Nothing is put on top of a remove or an abort node. -/
def home : Chain L → List (Chunk L)
  | .base node grown => node.chunk :: grown
  | .delta _ _ child | .merge _ child _ => child.home
  | .remove _ _ | .abort _ => []

/-- The nodes lie where `InlineAllocate` puts them. -/
def Placed : Chain L → Prop
  | .delta _ node child => node.chunk ∈ child.home ∧ child.Placed
  | .merge node child right => node.chunk ∈ right.home ∧ child.Placed ∧ right.Placed
  | .base _ _ | .remove _ _ | .abort _ => True

/-- All chunks of one base node come from one machine. -/
def OneOwner : Chain L → Prop
  | .base node grown => ∀ chunk ∈ grown, chunk.owner = node.chunk.owner
  | .delta _ _ child => child.OneOwner
  | .merge _ child right => child.OneOwner ∧ right.OneOwner
  | .remove _ _ | .abort _ => True

end Chain

end ShmPcc.RemoteGc
