import ShmPcc.Lib.Machine

/-!
# The ticket queue of mpmc_queue.h

`MPMCQueue` hands out tickets: an enqueue draws one from `tail`, a dequeue one
from `head`, and ticket `i` is served by slot `i % capacity` in round
`i / capacity`. The `turn` of a slot says whose move it is: `2 * r` invites the
enqueue of round `r`, `2 * r + 1` the dequeue of round `r`. `enqueue` and
`dequeue` draw first and then wait for their turn; `tryDequeue` looks at the
turn first and draws by compare-exchange.

Each load, store, `fetch_add` and compare-exchange is one access. The two
builds of the class differ only in the cache maintenance around the element
(`clwb` after it is written, `clflush` before it is read): those are accesses
that change nothing here, made when `noCc` is set. `item = std::move(slot.value)`
is two accesses, the load and the store of whatever the move leaves behind.

The fields below the line in `Mem` are history. No access reads them.
-/

namespace ShmPcc.MpmcQueue

variable {T : Type}

/-- What the constructor and the build fix, and what moving out of an element
leaves in its place. -/
structure Config (T : Type) where
  capacity : Nat
  pos : 0 < capacity
  /-- The constructor's assertion. -/
  pow : capacity &&& (capacity - 1) = 0
  noCc : Bool
  moved : T → T

namespace Config

variable (C : Config T)

def idx (i : Nat) : Nat := i % C.capacity

def turn (i : Nat) : Nat := i / C.capacity

end Config

structure Slot (T : Type) where
  value : T
  turn : Nat

structure Mem (T : Type) where
  head : Nat
  tail : Nat
  slots : Nat → Slot T
  -- history
  /-- Ticket `t` of the tail: the thread that drew it and the item it brought. -/
  drawn : List (Nat × T)
  /-- Ticket `h` of the head: the thread that took it. -/
  taken : List Nat
  /-- Tickets whose item has been written into its slot. -/
  stored : List Nat
  /-- Tickets whose enqueue has finished. -/
  published : List Nat
  /-- Tickets whose item has been read out of its slot. -/
  fetched : List Nat
  /-- What dequeues returned: thread, ticket of the head, item. -/
  returned : List (Nat × Nat × T)

namespace Mem

def setValue (m : Mem T) (i : Nat) (v : T) : Mem T :=
  { m with slots := Function.update m.slots i { m.slots i with value := v } }

def setTurn (m : Mem T) (i : Nat) (r : Nat) : Mem T :=
  { m with slots := Function.update m.slots i { m.slots i with turn := r } }

/-- The queue as the constructor leaves it; the elements are whatever the
element type's default is. -/
def new (v : Nat → T) : Mem T where
  head := 0
  tail := 0
  slots i := ⟨v i, 0⟩
  drawn := []
  taken := []
  stored := []
  published := []
  fetched := []
  returned := []

end Mem

/-- Where a thread stands, with its local variables. -/
inductive Pc (T : Type) where
  | idle
  | enqueue (item : T)
  | enqueueWait (item : T) (currentTail : Nat)
  | enqueueStore (item : T) (currentTail : Nat)
  | enqueueClwb (item : T) (currentTail : Nat)
  | enqueuePublish (item : T) (currentTail : Nat)
  | dequeue
  | dequeueWait (currentHead : Nat)
  | dequeueClflush (currentHead : Nat)
  | dequeueLoad (currentHead : Nat)
  | dequeueMove (currentHead : Nat) (item : T)
  | dequeueRelease (currentHead : Nat) (item : T)
  | tryDequeue
  | tryCheck (currentHead : Nat)
  | tryCas (currentHead : Nat)
  | tryReload (currentHead : Nat)

inductive Op (T : Type) where
  | enqueue (item : T)
  | dequeue
  | tryDequeue

/-- The element is read, past a cache flush where there is one. -/
def Pc.fetch (C : Config T) (h : Nat) : Pc T :=
  if C.noCc then .dequeueClflush h else .dequeueLoad h

/-- A thread between two operations calls the next one. -/
def call (op : Op T) : Pc T → Mem T → Option (Pc T × Mem T)
  | .idle, m =>
    match op with
    | .enqueue item => some (.enqueue item, m)
    | .dequeue => some (.dequeue, m)
    | .tryDequeue => some (.tryDequeue, m)
  | _, _ => none

/-- The next access of thread `u`. -/
def run (C : Config T) (u : Nat) : Pc T → Mem T → Option (Pc T × Mem T)
  | .idle, _ => none
  | .enqueue item, m =>
    some (.enqueueWait item m.tail,
      { m with tail := m.tail + 1, drawn := m.drawn ++ [(u, item)] })
  | .enqueueWait item t, m =>
    if C.turn t * 2 = (m.slots (C.idx t)).turn then some (.enqueueStore item t, m)
    else some (.enqueueWait item t, m)
  | .enqueueStore item t, m =>
    some (if C.noCc then .enqueueClwb item t else .enqueuePublish item t,
      { m.setValue (C.idx t) item with stored := m.stored ++ [t] })
  | .enqueueClwb item t, m => some (.enqueuePublish item t, m)
  | .enqueuePublish _ t, m =>
    some (.idle,
      { m.setTurn (C.idx t) (C.turn t * 2 + 1) with published := m.published ++ [t] })
  | .dequeue, m =>
    some (.dequeueWait m.head, { m with head := m.head + 1, taken := m.taken ++ [u] })
  | .dequeueWait h, m =>
    if C.turn h * 2 + 1 = (m.slots (C.idx h)).turn then some (.fetch C h, m)
    else some (.dequeueWait h, m)
  | .dequeueClflush h, m => some (.dequeueLoad h, m)
  | .dequeueLoad h, m =>
    some (.dequeueMove h (m.slots (C.idx h)).value, { m with fetched := m.fetched ++ [h] })
  | .dequeueMove h item, m =>
    some (.dequeueRelease h item, m.setValue (C.idx h) (C.moved item))
  | .dequeueRelease h item, m =>
    some (.idle,
      { m.setTurn (C.idx h) (C.turn h * 2 + 2) with
        returned := m.returned ++ [(u, h, item)] })
  | .tryDequeue, m => some (.tryCheck m.head, m)
  | .tryCheck h, m =>
    if C.turn h * 2 + 1 = (m.slots (C.idx h)).turn then some (.tryCas h, m)
    else some (.tryReload h, m)
  | .tryCas h, m =>
    -- a failed compare-exchange leaves the value it found in current_head
    if m.head = h then
      some (.fetch C h, { m with head := m.head + 1, taken := m.taken ++ [u] })
    else some (.tryCheck m.head, m)
  | .tryReload h, m =>
    if m.head = h then some (.idle, m) else some (.tryCheck m.head, m)

def machine (C : Config T) : Machine (Mem T) (Pc T) (Op T) where
  call _ op pc m := call op pc m
  run u pc m := run C u pc m

/-- A new queue that no thread has called yet. -/
def fresh (s : Sys (Mem T) (Pc T)) : Prop :=
  (∃ v, s.mem = Mem.new v) ∧ ∀ u, s.loc u = .idle

/-- The slot on which an operation works once its wait loop let it pass. -/
def Pc.past (C : Config T) : Pc T → Option Nat
  | .enqueueStore _ t | .enqueueClwb _ t | .enqueuePublish _ t => some (C.idx t)
  | .dequeueClflush h | .dequeueLoad h | .dequeueMove h _ | .dequeueRelease h _ => some (C.idx h)
  | _ => none

end ShmPcc.MpmcQueue
