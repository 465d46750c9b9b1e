import ShmPcc.Ref.CxlRefCount

/-!
# The release of objects of cxl-shm

`test_free` drops a counted reference. If the count it finds says that the reference is
the last one, it first drops the references embedded in the object, by calls of itself,
and then its own by `unlink_reference`, which takes the count down and frees the block
when it took it to 0. If there are other references it only calls `unlink_reference`.

Each access of a reference, of `ref_info` and of `embedded_ref_cnt` is one step. The
calls in progress of a thread are a list of frames, the innermost first. A thread has the
id of its number plus one, and `test_free` is called on references the thread has for
itself. Redo records, the eras other threads are known by, and the lists of free blocks
are left out: nothing here reads them.

The fields below the line in `Mem` are history: the object that counts a reference, the
references and the numbers of embedded references at the start, which thread has found
itself the last holder of an object, which one has taken its count to 0 and not freed it
yet, and what was dropped and freed, in this order.
-/

namespace ShmPcc.CxlTestFree

open CxlRefCount (RefInfo packRefInfo)
open Function

/-- A reference that thread `u` has, or the `i`th one embedded in an object. -/
inductive Slot where
  | own (u k : Nat)
  | embedded (o i : Nat)
deriving DecidableEq

inductive Event where
  | dropped (ref : Slot)
  | freed (o : Nat)
deriving DecidableEq

structure Mem where
  slot : Slot → Nat
  refInfo : Nat → RefInfo
  embeddedRefCnt : Nat → Nat
  era : Nat → Nat
  -- history
  val : Slot → Nat
  orig : Slot → Nat
  origCnt : Nat → Nat
  worker : Nat → Option Nat
  reaper : Nat → Option Nat
  log : List Event

/-- `ref_info_cnt - 1`, as far as it goes into `ref_info` -/
def pred (refCnt : Nat) : Nat := if refCnt = 0 then 2 ^ 32 - 1 else refCnt - 1

namespace Mem

/-- The CAS of thread `u`. -/
def cas (m : Mem) (u : Nat) (ref : Slot) (refed : Nat) (info : RefInfo) : Mem :=
  { m with
    refInfo := update m.refInfo refed (packRefInfo (u + 1) (pred info.refCnt) (m.era u))
    val := update m.val ref 0
    reaper := if info.refCnt = 1 then update m.reaper refed (some u) else m.reaper
    log := m.log ++ [.dropped ref] }

def clear (m : Mem) (ref : Slot) : Mem := { m with slot := update m.slot ref 0 }

def nextEra (m : Mem) (u : Nat) : Mem := { m with era := update m.era u (m.era u + 1) }

/-- Thread `u` has read a count of 1. -/
def claim (m : Mem) (u o : Nat) : Mem := { m with worker := update m.worker o (some u) }

/-- `cxl_free` begins with `memset` of the header. -/
def clearInfo (m : Mem) (o : Nat) : Mem :=
  { m with refInfo := update m.refInfo o ⟨0, 0, 0⟩ }

def free (m : Mem) (o : Nat) : Mem :=
  { m with
    embeddedRefCnt := update m.embeddedRefCnt o 0
    reaper := update m.reaper o none
    log := m.log ++ [.freed o] }

end Mem

/-- Where a call of `test_free` is. `sole` is whether it has gone through the embedded
references. -/
inductive Pc where
  | start
  | info (refed : Nat)
  | loop (refed i : Nat)
  /-- In the call for the `i`th embedded reference. -/
  | inner (refed i : Nat)
  -- unlink_reference
  | load (refed : Nat) (sole : Bool)
  | cas (refed : Nat) (info : RefInfo) (sole : Bool)
  | clear (refed : Nat) (info : RefInfo)
  | era (refed : Nat) (info : RefInfo)
  | memset (refed : Nat)
  | free (refed : Nat)
deriving DecidableEq

structure Frame where
  ref : Slot
  pc : Pc
deriving DecidableEq

inductive Op where
  | testFree (k : Nat)

def call (u : Nat) : Op → List Frame → Mem → Option (List Frame × Mem)
  | .testFree k, [], m => some ([⟨.own u k, .start⟩], m)
  | _, _ :: _, _ => none

/-- The innermost call has returned. -/
def ret : List Frame → List Frame
  | ⟨ref, .inner refed i⟩ :: fs => ⟨ref, .loop refed (i + 1)⟩ :: fs
  | fs => fs

def run (u : Nat) : List Frame → Mem → Option (List Frame × Mem)
  | [], _ => none
  | ⟨ref, pc⟩ :: fs, m =>
    match pc with
    | .start => some (if m.slot ref = 0 then ret fs else ⟨ref, .info (m.slot ref)⟩ :: fs, m)
    | .info refed =>
      if (m.refInfo refed).refCnt ≠ 1 then some (⟨ref, .load refed false⟩ :: fs, m)
      else some (⟨ref, .loop refed 0⟩ :: fs, m.claim u refed)
    | .loop refed i =>
      some (if i < m.embeddedRefCnt refed then
          ⟨.embedded refed i, .start⟩ :: ⟨ref, .inner refed i⟩ :: fs
        else ⟨ref, .load refed true⟩ :: fs, m)
    | .inner _ _ => none
    | .load refed sole => some (⟨ref, .cas refed (m.refInfo refed) sole⟩ :: fs, m)
    | .cas refed info sole =>
      if m.refInfo refed = info then some (⟨ref, .clear refed info⟩ :: fs, m.cas u ref refed info)
      else some (⟨ref, .load refed sole⟩ :: fs, m)
    | .clear refed info => some (⟨ref, .era refed info⟩ :: fs, m.clear ref)
    | .era refed info =>
      some (if info.refCnt ≠ 1 then ret fs else ⟨ref, .memset refed⟩ :: fs, m.nextEra u)
    | .memset refed => some (⟨ref, .free refed⟩ :: fs, m.clearInfo refed)
    | .free refed => some (ret fs, m.free refed)

def machine : Machine Mem (List Frame) Op where
  call := call
  run := run

/-- Objects count the references to them, and nothing is going on. -/
structure Fresh (s : Sys Mem (List Frame)) : Prop where
  idle : ∀ u, s.loc u = []
  counts : Counts 0 s.mem.slot fun o => (s.mem.refInfo o).refCnt
  small : ∀ o, (s.mem.refInfo o).refCnt < 2 ^ 16
  val : s.mem.val = s.mem.slot
  orig : s.mem.orig = s.mem.slot
  origCnt : s.mem.origCnt = s.mem.embeddedRefCnt
  worker : ∀ o, s.mem.worker o = none
  reaper : ∀ o, s.mem.reaper o = none
  log : s.mem.log = []

/-- The CAS of a call that has found other references does not take the count to 0. -/
def shares (m : Mem) : List Frame → Bool
  | ⟨_, .cas refed info false⟩ :: _ => m.refInfo refed = info → info.refCnt ≠ 1
  | _ => true

def sharing (s : Sys Mem (List Frame)) (a : Act Op) : Prop := shares s.mem (s.loc a.thread) = true

instance (s : Sys Mem (List Frame)) (a : Act Op) : Decidable (sharing s a) :=
  inferInstanceAs (Decidable (_ = true))

end ShmPcc.CxlTestFree
