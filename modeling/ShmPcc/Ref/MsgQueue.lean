import ShmPcc.Lib.Pool
import ShmPcc.Lib.Ring

/-!
# The message ring of msg_queue.cc

`MsgQueue` keeps messages of any length in a ring of bytes, padded to cache
lines. `head` and `tail` are pointers into the ring, here offsets from
`queue->msg`; a message that meets the end goes on at the start. The first
eight bytes of a message are its length, which `dequeue_msg` reads in place.

The pointers are volatile: each occurrence in the source is an access, also
where one expression has several. The copies are one access per call of
`memcpy_nt_write` and `memcpy_nt_read`, and their alignment assertions are kept.
`queue_full` ends the process, and so does a failed assertion: the thread halts.

`pending` and `passed` are history, which no access reads: the messages in the
ring that no dequeue has handed out yet (one of no bytes leaves nothing to hand
out), and for each space check that an enqueue passed the size it asked for
with the bytes that were free.
-/

namespace ShmPcc.MsgQueue

def cacheLineSize : Nat := 64

def queuePageCnt : Nat := 512

/-- `sizeof(queue->msg)` -/
def msgSize : Nat := queuePageCnt * 4096 - cacheLineSize

def alignToCacheLine (size : UInt64) : UInt64 :=
  (size + UInt64.ofNat cacheLineSize - 1) &&& ~~~(UInt64.ofNat cacheLineSize - 1)

/-- The `size_t` at offset `i`, lowest byte first. -/
def readSizeT (f : Nat → UInt8) (i : Nat) : UInt64 :=
  (List.range 8).foldr (fun k acc => (f (i + k)).toUInt64 + acc * 256) 0

/-- `node->length`, the first field of a message. -/
def length (node : Nat → UInt8) : UInt64 := readSizeT node 0

/-- The offset of `content` in a `msg_node`, behind `length`, `type` and `padding`. -/
def sizeofHeader : Nat := 16

/-- The bytes a message takes in the ring. -/
def totalSize (node : Nat → UInt8) : Nat := (alignToCacheLine (length node)).toNat

/-- The message as it lies in the ring. -/
def content (node : Nat → UInt8) : List UInt8 := slice node 0 (totalSize node)

structure Mem where
  head : Nat
  tail : Nat
  msg : Nat → UInt8
  -- history
  pending : List (List UInt8)
  passed : List (Nat × Nat)

namespace Mem

/-- `init_msg_queue` on memory that holds anything. -/
def initMsgQueue (msg : Nat → UInt8) : Mem where
  head := 0
  tail := 0
  msg := msg
  pending := []
  passed := []

/-- The bytes of the ring that undelivered messages take. -/
def used (m : Mem) : Nat := m.pending.flatten.length

/-- The bytes of the ring that they do not take. -/
def free (m : Mem) : Nat := msgSize - m.used

end Mem

/-- Where an access stands. The third read of `tail` is followed by the space
check: its point carries what the check compares. -/
inductive Site where
  | cmpTail | cmpHead
  | spaceTail | spaceHead
  | diffHead | diffTail
  | tmpTail (totalSize remainingSpace : Nat)
  | copyIn | copyInRest | storeTail
  | emptyHead | emptyTail
  | tmpHead | nodeLength | copyOut | copyOutRest | storeHead
deriving DecidableEq

open Prog

/-- A conversion to `int`. -/
def toInt (x : Int) : Int := x.bmod (2 ^ 32)

/-- A conversion to `size_t`. -/
def toSizeT (x : Int) : Nat := (x % 2 ^ 64).toNat

def getRemainSpace : Prog Site Mem Int := do
  let t ← read .cmpTail Mem.tail
  let h ← read .cmpHead Mem.head
  if h ≤ t then
    let t ← read .spaceTail Mem.tail
    let h ← read .spaceHead Mem.head
    ret (toInt (msgSize - ((t : Int) - h)))
  else
    let h ← read .diffHead Mem.head
    let t ← read .diffTail Mem.tail
    ret (toInt ((h : Int) - t))

def isQueueEmpty : Prog Site Mem Bool := do
  let h ← read .emptyHead Mem.head
  let t ← read .emptyTail Mem.tail
  ret (h == t)

/-- `assert` -/
def assert (b : Bool) : Prog Site Mem Unit := if b then ret () else halt

def memcpyNtWrite (l : Site) (dst : Nat) (src : Nat → UInt8) (s size : Nat) :
    Prog Site Mem Unit := do
  assert (size % 4 = 0 ∧ dst % 4 = 0 ∧ s % 4 = 0)
  write l fun m => { m with msg := overwrite m.msg dst src s size }

def memcpyNtRead (l : Site) (dst src size : Nat) : Prog Site Mem (List UInt8) := do
  assert (size % 16 = 0 ∧ dst % 16 = 0 ∧ src % 16 = 0)
  read l fun m => slice m.msg src size

/-- `adjust_tail` and `adjust_head`: an offset out of range is only reported. -/
def adjust (offset : Nat) : Nat := if offset = msgSize then 0 else offset

def Mem.push (m : Mem) (node : Nat → UInt8) : List (List UInt8) :=
  if totalSize node = 0 then m.pending else m.pending ++ [content node]

/-- The part of `enqueue_msg` behind the space check. -/
def putMsg (node : Nat → UInt8) (tmpTail : Nat) : Prog Site Mem Int := do
  let total := totalSize node
  let spaceAtEnd := toSizeT ((msgSize : Int) - tmpTail)
  if total ≤ spaceAtEnd then
    memcpyNtWrite .copyIn tmpTail node 0 total
    write .storeTail fun m =>
      { m with tail := adjust (tmpTail + total), pending := m.push node }
    ret 0
  else
    memcpyNtWrite .copyIn tmpTail node 0 spaceAtEnd
    memcpyNtWrite .copyInRest 0 node spaceAtEnd (total - spaceAtEnd)
    write .storeTail fun m =>
      { m with tail := adjust (total - spaceAtEnd), pending := m.push node }
    ret 0

/-- The history notes a space check that is passed. -/
def Mem.check (m : Mem) (total remainingSpace : Nat) : Mem :=
  if total ≤ remainingSpace then { m with passed := m.passed ++ [(total, m.free)] } else m

def enqueueMsg (node : Nat → UInt8) : Prog Site Mem Int := do
  let remainingSpace := toSizeT (← getRemainSpace)
  let tmpTail ← rmw (.tmpTail (totalSize node) remainingSpace)
    (fun m => m.check (totalSize node) remainingSpace) Mem.tail
  if remainingSpace < totalSize node then
    -- queue_full
    halt
  else
    putMsg node tmpTail

/-- `while (is_queue_empty()) sleep(1)`, given up after `retries` rounds. -/
def waitNonEmpty : Nat → Prog Site Mem Unit
  | 0 => halt
  | retries + 1 => do
    if ← isQueueEmpty then waitNonEmpty retries else ret ()

/-- The part of `dequeue_msg` behind the emptiness check. -/
def takeMsg : Prog Site Mem (List UInt8) := do
  let tmpHead ← read .tmpHead Mem.head
  let total ← read .nodeLength fun m => (alignToCacheLine (readSizeT m.msg tmpHead)).toNat
  let spaceAtEnd := toSizeT ((msgSize : Int) - tmpHead)
  if total ≤ spaceAtEnd then
    let result ← memcpyNtRead .copyOut 0 tmpHead total
    write .storeHead fun m =>
      { m with head := adjust (tmpHead + total), pending := m.pending.tail }
    ret result
  else
    let first ← memcpyNtRead .copyOut 0 tmpHead spaceAtEnd
    let second ← memcpyNtRead .copyOutRest spaceAtEnd 0 (total - spaceAtEnd)
    write .storeHead fun m =>
      { m with head := adjust (total - spaceAtEnd), pending := m.pending.tail }
    ret (first ++ second)

def dequeueMsg (retries : Nat) (blocking : Bool) : Prog Site Mem (Option (List UInt8)) := do
  if blocking then
    waitNonEmpty retries
    let result ← takeMsg
    ret (some result)
  else if ← isQueueEmpty then
    ret none
  else
    let result ← takeMsg
    ret (some result)

inductive Op where
  | enqueueMsg (node : Nat → UInt8)
  | dequeueMsg (blocking : Bool)
  | isQueueEmpty

inductive Ret where
  | done (status : Int)
  | msg (result : Option (List UInt8))
  | empty (answer : Bool)
deriving DecidableEq

def code (retries : Nat) : Op → Prog Site Mem Ret
  | .enqueueMsg node => do ret (.done (← enqueueMsg node))
  | .dequeueMsg blocking => do ret (.msg (← dequeueMsg retries blocking))
  | .isQueueEmpty => do ret (.empty (← isQueueEmpty))

/-- The thread that makes a call: one producer and one consumer share a queue. -/
def Op.thread : Op → Nat
  | .enqueueMsg _ => 0
  | .dequeueMsg _ | .isQueueEmpty => 1

def obj (retries : Nat) : Obj Site Mem Op Ret where
  code _ op := code retries op
  enter t op m := if t = op.thread then some m else none
  leave _ _ _ m := m

end ShmPcc.MsgQueue
