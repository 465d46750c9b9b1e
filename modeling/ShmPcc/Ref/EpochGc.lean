import ShmPcc.Lib.Machine

/-!
# The epoch collector of lsmalloc

`EpochBasedGC` gives each registered thread a local epoch. `begin_op` and
`end_op` publish the global epoch there, `retire` stamps a node with it, and
`end_op` reclaims from the thread's own list every node whose stamp is below
one less than the minimum of the local epochs. One thread runs `gc_loop`, whose
rounds advance the global epoch and store it into every local one.

Each load and store of an atomic is one access, and so is each callback. An
index outside the array of `MAX_CID` entries is undefined behaviour: the thread
takes no further step. The epochs are `int64_t`.

The fields below the line in `Mem` are history. `opened` says which thread ids
are between a finished `begin_op` and the call of `end_op`, and how many nodes
had been retired when the `begin_op` finished; a node carries its place in the
order of retirement in `serial`. So a `begin_op` finished before a node was
retired exactly when its number is at most the node's. `retireEpochs` keeps the
epochs of all nodes in that order.
-/

namespace ShmPcc.EpochGc

open Function

def maxCid : Nat := 1024

def int64Max : Int := 2 ^ 63 - 1

/-- A conversion to `int64_t`. -/
def toInt64 (x : Int) : Int := x.bmod (2 ^ 64)

structure RetiredNode where
  addr : Nat
  size : Nat
  retireEpoch : Int
  /-- Which callback the caller passed. -/
  callback : Nat
  serial : Nat
deriving DecidableEq

/-- A callback that was invoked, with the operations that were open then. -/
structure Invocation where
  node : RetiredNode
  opened : Nat → Option Nat

structure Mem where
  globalEpoch : Int
  registeredThreads : Nat
  localEpoch : Nat → Int
  retiredNodes : Nat → List RetiredNode
  -- history
  /-- The thread that registered as each id. -/
  owner : List Nat
  opened : Nat → Option Nat
  retireEpochs : List Int
  invoked : List Invocation

/-- The collector as its constructor leaves it. -/
def Mem.new : Mem where
  globalEpoch := 0
  registeredThreads := 0
  localEpoch _ := 0
  retiredNodes _ := []
  owner := []
  opened _ := none
  retireEpochs := []
  invoked := []

inductive Pc where
  | idle
  | registerAdd
  | registerStore (tid : Nat)
  | beginLoad
  | beginStore (epoch : Int)
  | retireLoad (addr size callback : Nat)
  | retirePush (node : RetiredNode)
  | endLoad
  | endStore (epoch : Int)
  | reclaimCheck (i : Nat) (minEpoch : Int)
  | reclaimLoad (i : Nat) (minEpoch : Int)
  | scan (it : Nat) (safeEpoch : Int)
  | tickAdd
  | tickCheck (i : Nat) (newEpoch : Int)
  | tickStore (i : Nat) (newEpoch : Int)
deriving DecidableEq

/-- A thread: the id it registered as, and where it stands. -/
structure Thread where
  tid : Option Nat
  pc : Pc
deriving DecidableEq

inductive Op where
  | registerThread
  | beginOp
  | retire (addr size callback : Nat)
  | endOp
  /-- One round of `gc_loop`. -/
  | tick

/-- The thread that runs `gc_loop`. -/
def gcThread : Nat := 0

/-- Calls are made between operations, rounds of `gc_loop` by its own thread,
and the operations on an id by the thread that registered it. -/
def call (u : Nat) (op : Op) (l : Thread) (m : Mem) : Option (Thread × Mem) :=
  match l.pc, op, l.tid with
  | .idle, .tick, _ => if u = gcThread then some ({ l with pc := .tickAdd }, m) else none
  | .idle, .registerThread, none =>
    if u = gcThread then none else some ({ l with pc := .registerAdd }, m)
  | .idle, .beginOp, some _ => some ({ l with pc := .beginLoad }, m)
  | .idle, .retire addr size callback, some _ =>
    some ({ l with pc := .retireLoad addr size callback }, m)
  | .idle, .endOp, some tid =>
    some ({ l with pc := .endLoad }, { m with opened := update m.opened tid none })
  | _, _, _ => none

/-- What `try_reclaim` compares the retire epochs with. -/
def safeEpoch (minEpoch : Int) : Int := if 0 < minEpoch then minEpoch - 1 else 0

/-- The next access of thread `u` with id `tid`, where it stands inside an
operation on its id. -/
def runOp (tid : Nat) : Pc → Mem → Option (Pc × Mem)
  | .beginLoad, m => some (.beginStore m.globalEpoch, m)
  | .beginStore epoch, m =>
    some (.idle, { m with
      localEpoch := update m.localEpoch tid epoch
      opened := update m.opened tid (some m.retireEpochs.length) })
  | .retireLoad addr size callback, m =>
    some (.retirePush ⟨addr, size, m.globalEpoch, callback, m.retireEpochs.length⟩,
      { m with retireEpochs := m.retireEpochs ++ [m.globalEpoch] })
  | .retirePush node, m =>
    some (.idle, { m with
      retiredNodes := update m.retiredNodes tid (m.retiredNodes tid ++ [node]) })
  | .endLoad, m => some (.endStore m.globalEpoch, m)
  | .endStore epoch, m =>
    some (.reclaimCheck 0 int64Max,
      { m with localEpoch := update m.localEpoch tid epoch })
  | .reclaimCheck i minEpoch, m =>
    if i < m.registeredThreads then some (.reclaimLoad i minEpoch, m)
    else some (.scan 0 (safeEpoch minEpoch), m)
  | .reclaimLoad i minEpoch, m =>
    if i < maxCid then some (.reclaimCheck (i + 1) (min minEpoch (m.localEpoch i)), m) else none
  | .scan it safe, m =>
    match (m.retiredNodes tid)[it]? with
    | none => some (.idle, m)
    | some node =>
      if node.retireEpoch < safe then
        some (.scan it safe, { m with
          retiredNodes := update m.retiredNodes tid
            ((m.retiredNodes tid).eraseIdx it)
          invoked := m.invoked ++ [⟨node, m.opened⟩] })
      else some (.scan (it + 1) safe, m)
  | _, _ => none

/-- The next access of thread `u`. -/
def run (u : Nat) (l : Thread) (m : Mem) : Option (Thread × Mem) :=
  match l.pc, l.tid with
  | .registerAdd, _ =>
    some (⟨none, .registerStore m.registeredThreads⟩,
      { m with registeredThreads := m.registeredThreads + 1, owner := m.owner ++ [u] })
  | .registerStore tid, _ =>
    if tid < maxCid then
      some (⟨some tid, .idle⟩,
        { m with localEpoch := update m.localEpoch tid int64Max })
    else none
  | .tickAdd, _ =>
    some ({ l with pc := .tickCheck 0 (toInt64 (m.globalEpoch + 1)) },
      { m with globalEpoch := toInt64 (m.globalEpoch + 1) })
  | .tickCheck i newEpoch, _ =>
    if i < m.registeredThreads then some ({ l with pc := .tickStore i newEpoch }, m)
    else some ({ l with pc := .idle }, m)
  | .tickStore i newEpoch, _ =>
    if i < maxCid then
      some ({ l with pc := .tickCheck (i + 1) newEpoch },
        { m with localEpoch := update m.localEpoch i newEpoch })
    else none
  | pc, some tid => (runOp tid pc m).map fun x => ({ l with pc := x.1 }, x.2)
  | _, none => none

def machine : Machine Mem Thread Op where
  call := call
  run := run

/-- A new collector with threads that have not registered. -/
def fresh (s : Sys Mem Thread) : Prop :=
  s.mem = Mem.new ∧ ∀ u, s.loc u = ⟨none, .idle⟩

end ShmPcc.EpochGc
