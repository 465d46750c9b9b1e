import ShmPcc.Lib.Machine

/-!
# Where the threads of cxl-shm keep their state

`thread_init` looks for a free slot in the vector of thread-local states, and the place
of the slot gives the thread its id. From the id follow the thread's row of the era
array and its hash table. The regions, in this order in memory: the segment allocation
vector, the era array, the thread-local states, the hash tables, and the segments.

The CAS on `packed_machine_process_id` is one step, and as the source has the weak one
it may fail in any slot. The rest of `thread_init` writes the thread's own slot and its
own era, of which the era is here. A slot is given back by the recovery of a thread that
has stopped.
-/

namespace ShmPcc.CxlLayout

open Function

def segmentAllocationVecSize : Nat := 2 ^ 22

def eraArrayStart : Nat := 2 ^ 22

def threadLocalVecStart : Nat := 2 ^ 23

def hashTableStart : Nat := 2 ^ 26

def hashTableSize : Nat := 2 ^ 20

def segmentsAreaStart : Nat := 2 ^ 27

def cxlBinSize : Nat := 66

def maxThread : Nat := 1024

def redoCachelineCnt : Nat := 8

def sizeofPageQueue : Nat := 24

/-- `cxl_thread_local_state_t`: the redo records, the packed id, the page queues, the two
lists of message queues; aligned to 64. -/
def sizeofThreadLocalState : Nat :=
  (64 * redoCachelineCnt + 8 + cxlBinSize * sizeofPageQueue + sizeofPageQueue + 8 + 8 + 63) / 64 * 64

/-! ### Regions -/

structure Region where
  start : Nat
  size : Nat

def Region.bytes (r : Region) : Set Nat := Set.Ico r.start (r.start + r.size)

/-- The bytes a thread has for itself. -/
inductive Kind where
  | threadLocalState
  | eraRow
  | hashTable
deriving DecidableEq

/-- The id of the thread whose state is at `offset`. -/
def threadId (offset : Nat) : Nat := (offset - threadLocalVecStart) / sizeofThreadLocalState + 1

/-- The address of `era(x, y)`. -/
def eraAddr (x y : Nat) : Nat := eraArrayStart + 4 * ((x - 1) * maxThread + (y - 1))

/-- The region of the thread whose state is at `offset`. -/
def Kind.region (offset : Nat) : Kind → Region
  | .threadLocalState => ⟨offset, sizeofThreadLocalState⟩
  | .eraRow => ⟨eraAddr (threadId offset) 1, 4 * maxThread⟩
  | .hashTable => ⟨hashTableStart + (threadId offset - 1) * hashTableSize, hashTableSize⟩

def segmentAllocationVec : Region := ⟨0, segmentAllocationVecSize⟩

def segmentsArea (size : Nat) : Region := ⟨segmentsAreaStart, size - segmentsAreaStart⟩

/-! ### Threads -/

def packMachineProcessId (machineId processId : Nat) : Nat := (machineId * 2 ^ 16 + processId) % 2 ^ 64

structure Mem where
  /-- `packed_machine_process_id` of the state at an offset. -/
  packed : Nat → Nat
  era : Nat → Nat → Nat

inductive Pc where
  | idle
  | cas (offset tlsId : Nat)
  | init (offset : Nat)
  | registered (tlsOffset threadId : Nat)
deriving DecidableEq

inductive Op where
  | threadInit (machineId processId : Nat)
  /-- The CAS fails though the slot is free, or not. -/
  | casFails
  /-- The thread has stopped, and its recovery is over. -/
  | recovered

def call (_ : Nat) : Op → Pc → Mem → Option (Pc × Mem)
  | .threadInit machineId processId, .idle, m =>
    some (.cas threadLocalVecStart (packMachineProcessId machineId processId), m)
  | .casFails, .cas offset tlsId, m => some (.cas (offset + sizeofThreadLocalState) tlsId, m)
  | .recovered, .registered tlsOffset _, m =>
    some (.idle, { m with packed := update m.packed tlsOffset 0 })
  | _, _, _ => none

def run (_ : Nat) : Pc → Mem → Option (Pc × Mem)
  | .cas offset tlsId, m =>
    if m.packed offset = 0 then
      some (.init offset, { m with packed := update m.packed offset tlsId })
    else some (.cas (offset + sizeofThreadLocalState) tlsId, m)
  | .init offset, m =>
    let t := threadId offset
    some (.registered offset t,
      { m with era := update m.era t (update (m.era t) t (m.era t t + 1)) })
  | _, _ => none

def machine : Machine Mem Pc Op where
  call := call
  run := run

def fresh (s : Sys Mem Pc) : Prop := (∀ o, s.mem.packed o = 0) ∧ ∀ u, s.loc u = .idle

/-- The slot a thread has. -/
def Pc.slot : Pc → Option Nat
  | .init offset => some offset
  | .registered tlsOffset _ => some tlsOffset
  | _ => none

/-- The number of hash tables there is room for. -/
def maxHashTables : Nat := (segmentsAreaStart - hashTableStart) / hashTableSize

/-- The thread is not beyond the slot of the last one that has a hash table. -/
def Pc.roomy : Pc → Bool
  | .cas offset _ => offset < threadLocalVecStart + maxHashTables * sizeofThreadLocalState
  | _ => true

/-- A packed id is not 0, which would leave the slot free. -/
def Op.named : Op → Bool
  | .threadInit machineId processId => packMachineProcessId machineId processId ≠ 0
  | _ => true

def roomy (s : Sys Mem Pc) : Act Op → Prop
  | .call _ op => op.named = true
  | .run u => (s.loc u).roomy = true

instance (s : Sys Mem Pc) : (a : Act Op) → Decidable (roomy s a)
  | .call _ _ => inferInstanceAs (Decidable (_ = true))
  | .run _ => inferInstanceAs (Decidable (_ = true))

end ShmPcc.CxlLayout
