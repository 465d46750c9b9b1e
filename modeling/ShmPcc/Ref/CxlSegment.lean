import ShmPcc.Lib.Machine

/-!
# The segments of cxl-shm and who owns them

`cxl_segment_alloc` goes through the segment allocation vector and takes the first
segment whose owner it can change from 0 to its own id by a CAS. Then it initialises
the allocation state and the header of the segment, and puts the pages of the segment,
all but the first one, into its queue of free pages. `cxl_segment_free` takes the pages
out of the queue, clears the header, and changes the owner back to 0.

Offsets are numbers. Each access of an allocation state and of a header is one step, and
so is each page that goes into the queue or out of it; the queue belongs to the thread,
and is a list of pages, named by their segment and their number. A thread has its number
as its id. No page comes into use here, so a thread may free any segment it has.

What a thread has is in its local state: `mine` are the segments it was given, and the
segment it is about to get or to give up is the one in its program counter. The last
field is history: what the failed CASes of the last `cxl_segment_alloc` have seen.
-/

namespace ShmPcc.CxlSegment

open Function

def segmentsAreaStart : Nat := 2 ^ 27

def segmentSize : Nat := 2 ^ 26

def pagesPerSegment : Nat := 1024

def segmentAllocationVecSize : Nat := 2 ^ 22

/-- `cxl_segment_allocation_state_t`, with its second half aligned to 16 -/
def sizeofAllocationState : Nat := 32

structure AllocationState where
  threadId : Nat
  ver : Nat
  state : Nat
  threadFree : Nat

/-- The header of a segment; `thread_id` is a `uint16_t`. -/
structure Segment where
  threadId : Nat
  used : Nat

structure Mem where
  /-- By their offsets, like the segments. -/
  sas : Nat → AllocationState
  segment : Nat → Segment
  freePage : Nat → List (Nat × Nat)

namespace Mem

def setSas (m : Mem) (data : Nat) (x : AllocationState) : Mem :=
  { m with sas := update m.sas data x }

def setSegment (m : Mem) (segment : Nat) (x : Segment) : Mem :=
  { m with segment := update m.segment segment x }

def setFreePage (m : Mem) (u : Nat) (pages : List (Nat × Nat)) : Mem :=
  { m with freePage := update m.freePage u pages }

end Mem

/-- The allocation state that `cxl_segment_alloc` tries at `count`, and its segment. -/
def dataAt (count : Nat) : Nat := (count - 1) * sizeofAllocationState

def segmentAt (count : Nat) : Nat := segmentsAreaStart + (count - 1) * segmentSize

/-- The allocation state that `cxl_segment_free` finds for a segment. -/
def dataOf (segment : Nat) : Nat := (segment - segmentsAreaStart) / segmentSize * sizeofAllocationState

inductive Pc where
  | idle
  /-- `cxl_segment_alloc` has returned NULL. -/
  | null
  | cas (count : Nat)
  | setVer (count : Nat)
  | setInfo (count : Nat)
  | setThreadId (count : Nat)
  | setUsed (count : Nat)
  | push (count page : Nat)
  | remove (segment page : Nat)
  | clearThreadId (segment : Nat)
  | clearUsed (segment : Nat)
  | release (segment : Nat)
deriving DecidableEq

structure Loc where
  pc : Pc
  mine : List Nat
  -- history
  seen : List (Nat × Nat)
deriving DecidableEq

inductive Op where
  | cxlSegmentAlloc
  | cxlSegmentFree (segment : Nat)

/-- The segment an operation works on. -/
def Pc.segment : Pc → Option Nat
  | .idle | .null | .cas _ => none
  | .setVer count | .setInfo count | .setThreadId count | .setUsed count | .push count _ =>
    some (segmentAt count)
  | .remove segment _ | .clearThreadId segment | .clearUsed segment | .release segment => some segment

/-- What a thread owns, from the CAS that takes a segment to the one that gives it up. -/
def Loc.owned (l : Loc) : List Nat := l.pc.segment.toList ++ l.mine

def bytes (segment : Nat) : Set Nat := Set.Ico segment (segment + segmentSize)

section

variable (size : Nat)

/-- The loop, at `count`. -/
def tryAt (count : Nat) : Pc := if segmentsAreaStart + count * segmentSize > size then .null else .cas count

def call (u : Nat) (op : Op) (l : Loc) (m : Mem) : Option (Loc × Mem) :=
  if u = 0 ∨ 2 ^ 32 ≤ u then none
  else if l.pc ≠ .idle ∧ l.pc ≠ .null then none
  else
    match op with
    | .cxlSegmentAlloc => some ({ l with pc := tryAt size 1, seen := [] }, m)
    | .cxlSegmentFree segment =>
      if segment ∈ l.mine ∧ (m.segment segment).used = 0 then
        some ({ l with pc := .remove segment 1, mine := l.mine.erase segment }, m)
      else none

def run (u : Nat) (l : Loc) (m : Mem) : Option (Loc × Mem) :=
  match l.pc with
  | .idle | .null => none
  | .cas count =>
    let sas := m.sas (dataAt count)
    if sas.threadId = 0 then
      some ({ l with pc := .setVer count }, m.setSas (dataAt count) { sas with threadId := u })
    else
      some ({ l with pc := tryAt size (count + 1), seen := (segmentAt count, sas.threadId) :: l.seen }, m)
  | .setVer count =>
    some ({ l with pc := .setInfo count },
      m.setSas (dataAt count) { m.sas (dataAt count) with ver := 0 })
  | .setInfo count =>
    some ({ l with pc := .setThreadId count },
      m.setSas (dataAt count) { m.sas (dataAt count) with state := 0, threadFree := 0 })
  | .setThreadId count =>
    some ({ l with pc := .setUsed count },
      m.setSegment (segmentAt count) { m.segment (segmentAt count) with threadId := u % 2 ^ 16 })
  | .setUsed count =>
    some ({ l with pc := .push count (pagesPerSegment - 1) },
      m.setSegment (segmentAt count) { m.segment (segmentAt count) with used := 0 })
  | .push count page =>
    let m' := m.setFreePage u ((segmentAt count, page) :: m.freePage u)
    if page - 1 ≥ 1 then some ({ l with pc := .push count (page - 1) }, m')
    else some ({ l with pc := .idle, mine := segmentAt count :: l.mine }, m')
  | .remove segment page =>
    let m' := m.setFreePage u ((m.freePage u).erase (segment, page))
    if page + 1 < pagesPerSegment then some ({ l with pc := .remove segment (page + 1) }, m')
    else some ({ l with pc := .clearThreadId segment }, m')
  | .clearThreadId segment =>
    some ({ l with pc := .clearUsed segment },
      m.setSegment segment { m.segment segment with threadId := 0 })
  | .clearUsed segment =>
    some ({ l with pc := .release segment },
      m.setSegment segment { m.segment segment with used := 0 })
  | .release segment =>
    let sas := m.sas (dataOf segment)
    if sas.threadId = u then
      some ({ l with pc := .idle }, m.setSas (dataOf segment) { sas with threadId := 0 })
    else some (l, m)

def machine : Machine Mem Loc Op where
  call := call size
  run := run size

end

/-- No segment is owned. -/
def fresh (s : Sys Mem Loc) : Prop := (∀ a, (s.mem.sas a).threadId = 0) ∧ ∀ u, s.loc u = ⟨.idle, [], []⟩

end ShmPcc.CxlSegment
