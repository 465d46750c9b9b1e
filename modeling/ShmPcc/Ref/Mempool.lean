import ShmPcc.Lib.Extent
import ShmPcc.Ref.MsgQueue

/-!
# Where mempool.cc puts the message queues

For each type of message and each ordered pair of clients there is one `msg_queue`. All of
them lie behind the shared memory of the clients, one after the other: those of a type
together, in them those of a source, and among these there is none from a client to itself.

`NUM_CLIENTS` is a parameter. What is computed from client numbers alone is an `int`, what
has a size or a pointer in it is a `size_t`.
-/

namespace ShmPcc.Mempool

open MsgQueue

/-- `msg_type_t` -/
inductive MsgType where
  | free | lockDele | bwtreeGc
deriving DecidableEq

/-- Its value, as an enumeration constant. -/
def MsgType.toNat : MsgType → Nat
  | .free => 0
  | .lockDele => 1
  | .bwtreeGc => 2

def msgTypeNum : Nat := 3

/-- `sizeof(msg_queue_t)`: the pointers are padded to a cache line. -/
def sizeofMsgQueue : Nat := cacheLineSize + msgSize

def shmSize : Nat := 16 * 1024 * 1024 * 1024

def shmTotalSize (numClients : Nat) : Nat := toSizeT (shmSize * numClients)

def globalBase : Nat := 0xcaffe0000000

def queueSize (numClients : Nat) : Nat :=
  toSizeT (toInt ((numClients : Int) * ((numClients : Int) - 1)) * sizeofMsgQueue)

def totalQueueSize (numClients : Nat) : Nat := toSizeT (msgTypeNum * queueSize numClients)

def queueBase (numClients : Nat) : Nat := toSizeT (globalBase + shmTotalSize numClients)

def getMsgQueue (numClients src dst : Nat) (type : MsgType) : Nat :=
  let actualPos : Int := if dst > src then (dst : Int) - 1 else dst
  toSizeT (queueBase numClients + type.toNat * queueSize numClients +
    toInt (toInt (src * ((numClients : Int) - 1)) + actualPos) * sizeofMsgQueue)

/-- The `msg_queue` there. -/
def msgQueue (numClients src dst : Nat) (type : MsgType) : Extent :=
  ⟨getMsgQueue numClients src dst type, sizeofMsgQueue⟩

end ShmPcc.Mempool
