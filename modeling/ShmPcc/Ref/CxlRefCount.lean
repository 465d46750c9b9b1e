import ShmPcc.Lib.Machine
import ShmPcc.Lib.Tally

/-!
# Reference counts of cxl-shm and their redo records

An object counts the slots that refer to it: words `pptr` of root references,
embedded references and places in the buffers of message queues. `link_reference`
and `unlink_reference` change the count by a CAS on `ref_info` and write the slot
after it. So that a thread that stops in between can be helped, the count carries
the id of the thread that changed it last and its era, a thread that is about to
change a count first keeps the era it found there in its row of the era array, and
the operation is in a redo record from before the CAS. `redo_ref_cnt` takes the
newest record of a stopped thread and writes the slot when the CAS was made, which
it sees by the era.

`sent_to` links an object into a queue, `cxl_unwrap` links it from the queue to a
root reference of the receiver and unlinks the place in the queue. The root reference
comes from `thread_base_ref_alloc`, whose slow path clears the redo records.

Each access of `ref_info`, of the slots, of another thread's cells, of the redo
records and of `start` and `end` of a queue is one step. A thread's own cells are
written by nobody else, and reading one goes with the step after it. Eras do not
wrap. `receiver_id` and the lists of queues are left out: here the sender and the
receiver of a queue are given.

The fields below the line in `Mem` are history: for each slot the object that
counts it, the era of the last CAS of each thread, which thread works on a slot, and
which threads link an object they have through it. The last two say who may call
what: a slot is not written while another operation works on it or relies on it.
-/

namespace ShmPcc.CxlRefCount

open Function

def maxThread : Nat := 1024

def redoCachelineCnt : Nat := 8

def messageBufferSize : Nat := 16

inductive Slot where
  | ref (a : Nat)
  | buffer (q i : Nat)
deriving DecidableEq

/-- What `ref_info` packs. -/
structure RefInfo where
  lcid : Nat
  refCnt : Nat
  lenum : Nat
deriving DecidableEq

/-- `pack_ref_info`: a count that does not fit into 16 bits carries into the id. -/
def packRefInfo (lcid refCnt lenum : Nat) : RefInfo :=
  ⟨(lcid + refCnt / 2 ^ 16) % 2 ^ 16, refCnt % 2 ^ 16, lenum⟩

/-- `redo_func_id` -/
inductive Kind where
  | linkRef
  | unlinkRef
deriving DecidableEq

def Kind.newCnt : Kind → Nat → Nat
  | .linkRef, refCnt => refCnt + 1
  | .unlinkRef, refCnt => refCnt - 1

/-- What the slot holds when the operation is done. -/
def Kind.target : Kind → Nat → Nat
  | .linkRef, refed => refed
  | .unlinkRef, _ => 0

structure RedoLog where
  funcId : Option Kind
  savedRefCnt : Nat
  curEra : Nat
  ref : Slot
  refed : Nat
deriving DecidableEq

def RedoLog.zero : RedoLog := ⟨none, 0, 0, .ref 0, 0⟩

structure Mem where
  slot : Slot → Nat
  refInfo : Nat → RefInfo
  /-- `era(x, y)`: the era of thread `y` as thread `x` knows it. -/
  era : Nat → Nat → Nat
  redo : Nat → Nat → RedoLog
  qStart : Nat → Nat
  qEnd : Nat → Nat
  senderId : Nat → Nat
  receiverId : Nat → Nat
  /-- The objects whose segment is in state `POTENTIAL_LEAKING`. -/
  leaking : Nat → Bool
  -- history
  val : Slot → Nat
  posted : Nat → Nat
  user : Slot → Nat
  pins : Slot → List Nat

namespace Mem

def setSlot (m : Mem) (s : Slot) (o : Nat) : Mem := { m with slot := update m.slot s o }

def setRefInfo (m : Mem) (o : Nat) (info : RefInfo) : Mem :=
  { m with refInfo := update m.refInfo o info }

def setEra (m : Mem) (x y e : Nat) : Mem :=
  { m with era := update m.era x (update (m.era x) y e) }

def setRedo (m : Mem) (x i : Nat) (r : RedoLog) : Mem :=
  { m with redo := update m.redo x (update (m.redo x) i r) }

def setUser (m : Mem) (s : Slot) (u : Nat) : Mem := { m with user := update m.user s u }

def pin (m : Mem) (u : Nat) (s : Slot) : Mem :=
  { m with pins := update m.pins s (u :: m.pins s) }

def unpin (m : Mem) (u : Nat) (s : Slot) : Mem :=
  { m with pins := update m.pins s ((m.pins s).erase u) }

/-- The CAS of thread `u`, which counts the slot or ceases to. -/
def cas (m : Mem) (u : Nat) (kind : Kind) (ref : Slot) (refed : Nat) (info : RefInfo) (e : Nat) : Mem :=
  { m.setRefInfo refed (packRefInfo u (kind.newCnt info.refCnt) e) with
    val := update m.val ref (kind.target refed)
    posted := update m.posted u e }

end Mem

/-- What follows a call of `link_reference` or `unlink_reference`: nothing, the rest
of `sent_to`, or of `cxl_unwrap` after its first and its second call. -/
inductive Next where
  | done
  | sent (q : Nat)
  | got (q : Nat)
  | emptied (q : Nat)
deriving DecidableEq

/-- `via` is where the caller has the object from that it links. -/
structure Call where
  kind : Kind
  ref : Slot
  refed : Nat
  via : Slot
  next : Next
deriving DecidableEq

inductive Pc where
  | idle
  -- sent_to
  | sendRead (q : Nat) (tbr : Slot)
  | sendFull (q offset : Nat) (tbr : Slot)
  | sendWrap (q offset : Nat) (tbr : Slot)
  | sendNext (q : Nat)
  -- cxl_unwrap
  | recvEmpty (q a : Nat) (generic : Bool)
  | recvSlot (q a : Nat) (generic : Bool)
  | clear (q a k : Nat)
  | recvRead (q a : Nat)
  | recvAgain (q : Nat)
  | recvNext (q : Nat)
  -- link_reference and unlink_reference
  | load (c : Call)
  | note (c : Call) (info : RefInfo)
  | record (c : Call) (info : RefInfo)
  | cas (c : Call) (info : RefInfo) (curEra : Nat)
  | write (c : Call) (info : RefInfo)
  | bump (c : Call) (info : RefInfo)
  | free (c : Call)
deriving DecidableEq

inductive Op where
  | linkReference (a b : Nat)
  | unlinkReference (a : Nat)
  | sentTo (q b : Nat)
  | cxlUnwrap (q a : Nat) (generic : Bool)

/-- Nobody works on slot `a` or relies on it. -/
def Mem.unused (m : Mem) (s : Slot) : Bool := m.user s = 0 ∧ m.pins s = []

/-- Thread ids count from 1. An object is linked from a slot that holds it to an
empty one. -/
def call (u : Nat) (op : Op) : Pc → Mem → Option (Pc × Mem)
  | .idle, m =>
    if 1 ≤ u ∧ u ≤ maxThread then
      match op with
      | .linkReference a b =>
        if m.slot (.ref a) = 0 ∧ m.unused (.ref a) ∧ m.slot (.ref b) ≠ 0 ∧ m.user (.ref b) = 0 then
          some (.load ⟨.linkRef, .ref a, m.slot (.ref b), .ref b, .done⟩,
            (m.setUser (.ref a) u).pin u (.ref b))
        else none
      | .unlinkReference a =>
        if m.slot (.ref a) ≠ 0 ∧ m.unused (.ref a) then
          some (.load ⟨.unlinkRef, .ref a, m.slot (.ref a), .ref a, .done⟩, m.setUser (.ref a) u)
        else none
      | .sentTo q b =>
        if m.senderId q = u ∧ m.slot (.ref b) ≠ 0 ∧ m.user (.ref b) = 0 then
          some (.sendRead q (.ref b), m.pin u (.ref b))
        else none
      | .cxlUnwrap q a generic =>
        if m.receiverId q = u ∧ m.slot (.ref a) = 0 ∧ m.unused (.ref a) then
          some (.recvEmpty q a generic, m.setUser (.ref a) u)
        else none
    else none
  | _, _ => none

def Next.pc : Next → Pc
  | .done => .idle
  | .sent q => .sendNext q
  | .got q => .recvAgain q
  | .emptied q => .recvNext q

/-- A place in a queue stays with its thread until the queue moves on. -/
def Mem.finish (m : Mem) (u : Nat) (c : Call) : Mem :=
  let m' := m.unpin u c.via
  match c.next with
  | .done | .got _ => m'.setUser c.ref 0
  | .sent _ | .emptied _ => m'

def run (u : Nat) : Pc → Mem → Option (Pc × Mem)
  | .idle, _ => none
  | .sendRead q tbr, m => some (.sendFull q (m.slot tbr) tbr, m)
  | .sendFull q offset tbr, m =>
    if m.qEnd q + 1 = m.qStart q then some (.idle, m.unpin u tbr)
    else some (.sendWrap q offset tbr, m)
  | .sendWrap q offset tbr, m =>
    if (m.qEnd q + 2 ^ 64 - m.qStart q) % 2 ^ 64 = messageBufferSize - 1 then
      some (.idle, m.unpin u tbr)
    else
      let ref := .buffer q (m.qEnd q)
      some (.load ⟨.linkRef, ref, offset, tbr, .sent q⟩, m.setUser ref u)
  | .sendNext q, m =>
    some (.idle, { m.setUser (.buffer q (m.qEnd q)) 0 with
      qEnd := update m.qEnd q ((m.qEnd q + 1) % messageBufferSize) })
  | .recvEmpty q a generic, m =>
    if m.qStart q = m.qEnd q then some (.idle, m.setUser (.ref a) 0)
    else some (.recvSlot q a generic, m)
  | .recvSlot q a generic, m =>
    let ref := .buffer q (m.qStart q)
    if m.slot ref = 0 then some (.idle, m.setUser (.ref a) 0)
    else some (if generic then .clear q a 0 else .recvRead q a, m.setUser ref u)
  | .clear q a k, m =>
    if k < redoCachelineCnt then some (.clear q a (k + 1), m.setRedo u k .zero)
    else some (.recvRead q a, m)
  | .recvRead q a, m =>
    let via := .buffer q (m.qStart q)
    some (.load ⟨.linkRef, .ref a, m.slot via, via, .got q⟩, m)
  | .recvAgain q, m =>
    let ref := .buffer q (m.qStart q)
    some (.load ⟨.unlinkRef, ref, m.slot ref, ref, .emptied q⟩, m)
  | .recvNext q, m =>
    some (.idle, { m.setUser (.buffer q (m.qStart q)) 0 with
      qStart := update m.qStart q ((m.qStart q + 1) % messageBufferSize) })
  | .load c, m => some (.note c (m.refInfo c.refed), m)
  | .note c info, m =>
    some (.record c info,
      if info.lenum > m.era u info.lcid then m.setEra u info.lcid info.lenum else m)
  | .record c info, m =>
    let curEra := m.era u u
    some (.cas c info curEra,
      m.setRedo u (curEra % redoCachelineCnt) ⟨some c.kind, info.refCnt, curEra, c.ref, c.refed⟩)
  | .cas c info curEra, m =>
    if m.refInfo c.refed = info then some (.write c info, m.cas u c.kind c.ref c.refed info curEra)
    else some (.load c, m)
  | .write c info, m => some (.bump c info, m.setSlot c.ref (c.kind.target c.refed))
  | .bump c info, m =>
    some (if c.kind = .unlinkRef ∧ info.refCnt = 1 then .free c else c.next.pc,
      (m.setEra u u (m.era u u + 1)).finish u c)
  | .free c, m => some (c.next.pc, m.setRefInfo c.refed ⟨0, 0, 0⟩)

def machine : Machine Mem Pc Op where
  call := call
  run := run

/-- Threads have registered, and queues are empty. Each count is right, and the eras
in the counts and in the rows of other threads are past ones. -/
def fresh (s : Sys Mem Pc) : Prop :=
  (∀ u, s.loc u = .idle) ∧ s.mem.val = s.mem.slot ∧
    (∀ k, 1 ≤ k → s.mem.posted k + 1 = s.mem.era k k) ∧
    (∀ t, s.mem.user t = 0 ∧ s.mem.pins t = []) ∧ (∀ u i, s.mem.redo u i = .zero) ∧
    (∀ q, s.mem.qStart q = 0 ∧ s.mem.qEnd q = 0) ∧ (∀ q i, s.mem.slot (.buffer q i) = 0) ∧
    Sparse 0 s.mem.slot ∧ (∀ o, o ≠ 0 → (s.mem.refInfo o).refCnt = tally s.mem.slot o) ∧
    (∀ o k, 1 ≤ k → (s.mem.refInfo o).lcid = k → (s.mem.refInfo o).lenum < s.mem.era k k) ∧
    ∀ j k, j ≠ k → 1 ≤ k → s.mem.era j k < s.mem.era k k

/-! ### Recovery -/

/-- The record with the largest era, the first of them. -/
def newestRedo (redo : Nat → RedoLog) : RedoLog :=
  (List.range' 1 (redoCachelineCnt - 1)).foldl
    (fun r i => if (redo i).curEra > r.curEra then redo i else r) (redo 0)

/-- The loop goes over the rows 0 to 1023. Row 0 lies in front of the array, where
nothing is written. -/
def maxEra (m : Mem) (tlsId : Nat) : Nat :=
  (List.range maxThread).foldl
    (fun e j => if j = tlsId then e else if m.era j tlsId > e then m.era j tlsId else e) 0

def needRedo (m : Mem) (tlsId : Nat) (redo : RedoLog) : Bool :=
  (m.refInfo redo.refed).lcid = tlsId ∧ (m.refInfo redo.refed).lenum = redo.curEra ∨
    redo.curEra ≤ maxEra m tlsId

def redoRefCnt (tlsId : Nat) (m : Mem) : Mem :=
  let redo := newestRedo (m.redo tlsId)
  match redo.funcId with
  | none => m
  | some kind =>
    let m' := if needRedo m tlsId redo then m.setSlot redo.ref (kind.target redo.refed) else m
    -- the count is taken from the saved count as if that were a `ref_info`
    if kind = .unlinkRef ∧ redo.savedRefCnt / 2 ^ 32 % 2 ^ 16 = 1 then
      { m' with leaking := update m'.leaking redo.refed true }
    else m'

/-- The thread is inside a call on object `o`. -/
def Pc.inside (o : Nat) : Pc → Prop
  | .load c | .note c _ | .record c _ | .cas c _ _ | .write c _ | .bump c _ | .free c => c.refed = o
  | _ => False

/-- What recovery finds in the records of thread `t` does no harm. A record of an
operation that is done is not replayed, or leaves its slot as it is. For one that is
not done, thread 1024, whose row the loop leaves out, has not kept its era. -/
def harmless (t : Nat) (m : Mem) : Bool :=
  let redo := newestRedo (m.redo t)
  match redo.funcId with
  | none => true
  | some kind =>
    if redo.curEra < m.era t t then
      !needRedo m t redo || m.slot redo.ref = kind.target redo.refed
    else t = maxThread || m.era maxThread t < redo.curEra

/-- The new count fits into its 16 bits. -/
def Pc.fits : Pc → Bool
  | .cas c info _ => c.kind.newCnt info.refCnt < 2 ^ 16
  | _ => true

/-- No count exceeds its 16 bits. -/
def bounded (s : Sys Mem Pc) (a : Act Op) : Prop := (s.loc a.thread).fits = true

instance (s : Sys Mem Pc) (a : Act Op) : Decidable (bounded s a) :=
  inferInstanceAs (Decidable (_ = true))

end ShmPcc.CxlRefCount
