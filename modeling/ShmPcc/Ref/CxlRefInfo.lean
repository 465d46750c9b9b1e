import ShmPcc.Ref.CxlAlloc

/-!
# The words that hold reference counts, bit by bit

`ref_info` of an object packs the id of the thread that changed the count last, the
count and the era of that change into 64 bits. `link_reference` and
`unlink_reference` take the word apart, keep the era they found in their row of the
era array, write a redo record and put a new word together for their CAS; the last
unlink frees the block. The widths of the integers are those of the source, and
`era(x, y)` is a place in one array, also where `y` is no thread id.

Each access to shared memory is one step, in the order of the source: a link reads
its own era before it keeps the era it found, an unlink after that. A weak CAS that
fails without need repeats the loop and is left out. Between its calls a thread may
do anything to the objects and to the memory of the allocator, and to its own era
and redo records.

`log` is history: the CASes, and the decisions of `unlink_reference` whether to free.
-/

namespace ShmPcc.CxlRefInfo

open CxlAlloc (pageOf segmentOf pageQueue)
open Function

abbrev Word := BitVec 64

def maxThread : Nat := 1024

def redoCachelineCnt : Nat := 8

def packRefInfo (lcid refCnt : Word) (lenum : BitVec 32) : Word :=
  (lcid <<< 48) + (refCnt <<< 32) + lenum.setWidth 64

def getRefCntFromInfo (refInfo : Word) : Word := (refInfo >>> 32) &&& ((1 <<< 16) - 1)

def getLenumFromInfo (refInfo : Word) : Word := refInfo &&& ((1 <<< 32) - 1)

def getLcidFromInfo (refInfo : Word) : Word := (refInfo >>> 48) &&& ((1 <<< 16) - 1)

/-- `redo_func_id` -/
inductive Kind where
  | linkRef
  | unlinkRef
deriving DecidableEq

/-- The count to be packed: the 16 bits of the old one, as an `int`, plus or minus 1. -/
def Kind.newCnt (refInfoCnt : BitVec 16) : Kind → Word
  | .linkRef => refInfoCnt.setWidth 64 + 1
  | .unlinkRef => refInfoCnt.setWidth 64 - 1

/-- What the reference holds when the operation is done. -/
def Kind.target (refed : Nat) : Kind → Nat
  | .linkRef => refed
  | .unlinkRef => 0

structure RedoLog where
  funcId : Option Kind
  savedRefCnt : BitVec 16
  curEra : BitVec 32
  ref : Nat
  refed : Nat
deriving DecidableEq

inductive Event where
  /-- The CAS of thread `u`, with the era in its own cell at that time. -/
  | cas (kind : Kind) (u refed : Nat) (before after : Word) (era : BitVec 32)
  /-- An unlink whose CAS left `after` goes on to free the block, or returns. -/
  | unlinked (u refed : Nat) (after : Word) (freed : Bool)
deriving DecidableEq

structure Mem where
  refInfo : Nat → Word
  /-- The references, by offset. -/
  ref : Nat → Nat
  /-- The era array, and what lies around it. -/
  era : Int → BitVec 32
  redo : Nat → Nat → RedoLog
  blocks : CxlAlloc.Mem
  -- history
  log : List Event

/-- Where `era(x, y)` is in the array. -/
def eraIdx (x y : Int) : Int := (x - 1) * maxThread + (y - 1)

/-- The call `link_reference(ref, refed)` or `unlink_reference(ref, refed)`. -/
structure Call where
  kind : Kind
  ref : Nat
  refed : Nat
deriving DecidableEq

inductive Pc where
  | idle
  -- link_reference and unlink_reference
  | load (c : Call)
  | curEra (c : Call) (refInfo : Word)
  /-- `era` is there where the thread has read its own already. -/
  | sawEra (c : Call) (refInfo : Word) (era : Option (BitVec 32))
  | keepEra (c : Call) (refInfo : Word) (era : Option (BitVec 32))
  | record (c : Call) (refInfo : Word) (era : BitVec 32)
  | cas (c : Call) (refInfo : Word) (era : BitVec 32)
  | write (c : Call) (refInfo after : Word)
  | bump (c : Call) (refInfo after : Word)
  | decide (c : Call) (refInfo after : Word)
  -- cxl_free
  | memset (b : Nat)
  | owner (b : Nat)
  | pushNext (b : Nat)
  | pushLocal (b : Nat)
  | unused (q : Nat)
  | releasePage (q : Nat)
  | releaseSegment (n : Nat)
  | infoFirst (b : Nat)
  | infoLoad (b : Nat)
  | infoCas (b : Nat) (info : CxlAlloc.Info)
deriving DecidableEq

inductive Op where
  | linkReference (ref refed : Nat)
  | unlinkReference (ref refed : Nat)
  /-- What the thread does between its calls. -/
  | other (refInfo : Nat → Word) (ref : Nat → Nat) (era : BitVec 32) (redo : Nat → RedoLog)
      (blocks : CxlAlloc.Mem)

/-- Thread ids count from 1. -/
def call (u : Nat) (op : Op) : Pc → Mem → Option (Pc × Mem)
  | .idle, m =>
    if 1 ≤ u ∧ u ≤ maxThread then
      match op with
      | .linkReference ref refed => some (.load ⟨.linkRef, ref, refed⟩, m)
      | .unlinkReference ref refed => some (.load ⟨.unlinkRef, ref, refed⟩, m)
      | .other refInfo ref era redo blocks =>
        some (.idle, { m with
          refInfo := refInfo
          ref := ref
          era := update m.era (eraIdx u u) era
          redo := update m.redo u redo
          blocks := blocks })
    else none
  | _, _ => none

/-- The cell of the era array for the thread whose id is in the word. -/
def Mem.sawCell (u : Nat) (refInfo : Word) : Int := eraIdx u (getLcidFromInfo refInfo).toNat

/-- `saw_era` -/
def sawEra (refInfo : Word) : BitVec 32 := (getLenumFromInfo refInfo).setWidth 32

/-- `ref_info_cnt` -/
def refInfoCnt (refInfo : Word) : BitVec 16 := (getRefCntFromInfo refInfo).setWidth 16

def newRefInfo (u : Nat) (kind : Kind) (refInfo : Word) (era : BitVec 32) : Word :=
  packRefInfo (BitVec.ofNat 64 u) (kind.newCnt (refInfoCnt refInfo)) era

/-- The CAS on `ref_info`. -/
def Mem.cas (m : Mem) (u : Nat) (c : Call) (refInfo : Word) (era : BitVec 32) : Mem :=
  { m with
    refInfo := update m.refInfo c.refed (newRefInfo u c.kind refInfo era)
    log := m.log ++ [.cas c.kind u c.refed (m.refInfo c.refed) (newRefInfo u c.kind refInfo era)
      (m.era (eraIdx u u))] }

/-- The store to `local_free` of the page of `b`. -/
def Mem.setLocalFree (m : Mem) (b : Nat) : Mem :=
  { m with blocks := m.blocks.setPage (pageOf b) { m.blocks.page (pageOf b) with localFree := b } }

def run (u : Nat) : Pc → Mem → Option (Pc × Mem)
  | .idle, _ => none
  | .load c, m =>
    let refInfo := m.refInfo c.refed
    match c.kind with
    | .linkRef => some (.curEra c refInfo, m)
    | .unlinkRef => some (.sawEra c refInfo none, m)
  | .curEra c refInfo, m =>
    let era := m.era (eraIdx u u)
    match c.kind with
    | .linkRef => some (.sawEra c refInfo (some era), m)
    | .unlinkRef => some (.record c refInfo era, m)
  | .sawEra c refInfo era, m =>
    if sawEra refInfo > m.era (Mem.sawCell u refInfo) then some (.keepEra c refInfo era, m)
    else
      match era with
      | some era => some (.record c refInfo era, m)
      | none => some (.curEra c refInfo, m)
  | .keepEra c refInfo era, m =>
    let m' := { m with era := update m.era (Mem.sawCell u refInfo) (sawEra refInfo) }
    match era with
    | some era => some (.record c refInfo era, m')
    | none => some (.curEra c refInfo, m')
  | .record c refInfo era, m =>
    let log : RedoLog := ⟨some c.kind, refInfoCnt refInfo, era, c.ref, c.refed⟩
    some (.cas c refInfo era, { m with
      redo := update m.redo u
        (update (m.redo u) (era &&& (BitVec.ofNat 32 redoCachelineCnt - 1)).toNat log) })
  | .cas c refInfo era, m =>
    if m.refInfo c.refed = refInfo then
      some (.write c refInfo (newRefInfo u c.kind refInfo era), m.cas u c refInfo era)
    else some (.load c, m)
  | .write c refInfo after, m =>
    some (.bump c refInfo after, { m with
      ref := update m.ref c.ref (c.kind.target c.refed) })
  | .bump c refInfo after, m =>
    let m' := { m with
      era := update m.era (eraIdx u u) (m.era (eraIdx u u) + 1) }
    match c.kind with
    | .linkRef => some (.idle, m')
    | .unlinkRef => some (.decide c refInfo after, m')
  | .decide c refInfo after, m =>
    -- the subtraction and the comparison are unsigned
    let kept := decide (getRefCntFromInfo refInfo - 1 > 0)
    some (if kept then .idle else .memset c.refed,
      { m with log := m.log ++ [.unlinked u c.refed after !kept] })
  | .memset b, m =>
    some (.owner b, { m with
      refInfo := update m.refInfo b 0
      blocks := m.blocks.setNext b 0 })
  | .owner b, m =>
    if (m.blocks.segment (segmentOf (pageOf b))).threadId = u then some (.pushNext b, m)
    else some (.infoFirst b, m)
  | .pushNext b, m =>
    some (.pushLocal b, { m with
      blocks := m.blocks.setNext b (m.blocks.page (pageOf b)).localFree })
  | .pushLocal b, m => some (.unused (pageOf b), m.setLocalFree b)
  | .unused q, m =>
    let page := { m.blocks.page q with used := (m.blocks.page q).used - 1 }
    some (if page.used = 0 then .releasePage q else .idle,
      { m with blocks := m.blocks.setPage q page })
  | .releasePage q, m =>
    let blocks := m.blocks.pageFree u (pageQueue false (m.blocks.page q).blockSize) q
    some (if (blocks.segment (segmentOf q)).used = 0 then .releaseSegment (segmentOf q) else .idle,
      { m with blocks := blocks })
  | .releaseSegment n, m => some (.idle, { m with blocks := m.blocks.segmentFree u n })
  | .infoFirst b, m => some (.infoLoad b, m)
  | .infoLoad b, m =>
    let info := (m.blocks.sas (segmentOf (pageOf b))).info
    if info.state = .potentialLeaking then some (.idle, m)
    else some (.infoCas b info, { m with blocks := m.blocks.setNext b info.threadFree })
  | .infoCas b info, m =>
    let n := segmentOf (pageOf b)
    if (m.blocks.sas n).info = info then
      some (.idle, { m with blocks := m.blocks.setInfo n ⟨info.state, b⟩ })
    else some (.infoLoad b, m)

def machine : Machine Mem Pc Op where
  call := call
  run := run

/-- No thread is in a call; the memory holds anything. -/
def anyMemory (s : Sys Mem Pc) : Prop := (∀ u, s.loc u = .idle) ∧ s.mem.log = []

/-! ### Recovery -/

/-- The record with the largest era, the first of them. -/
def newestRedo (redo : Nat → RedoLog) : RedoLog :=
  (List.range' 1 (redoCachelineCnt - 1)).foldl
    (fun r i => if (redo i).curEra > r.curEra then redo i else r) (redo 0)

/-- The loop goes over the rows 0 to 1023; row 0 lies in front of the array. -/
def maxEra (m : Mem) (tlsId : Nat) : BitVec 32 :=
  (List.range maxThread).foldl
    (fun e j =>
      if j = tlsId then e
      else if m.era (eraIdx j tlsId) > e then m.era (eraIdx j tlsId) else e) 0

def needRedo (m : Mem) (tlsId : Nat) (redo : RedoLog) : Bool :=
  (getLcidFromInfo (m.refInfo redo.refed)).toNat = tlsId ∧
      sawEra (m.refInfo redo.refed) = redo.curEra ∨
    redo.curEra ≤ maxEra m tlsId

/-- `redo_ref_cnt` for the thread with id `tlsId`. -/
def redoRefCnt (tlsId : Nat) (m : Mem) : Mem :=
  let redo := newestRedo (m.redo tlsId)
  match redo.funcId with
  | none => m
  | some kind =>
    let m' := if needRedo m tlsId redo then
        { m with ref := update m.ref redo.ref (kind.target redo.refed) }
      else m
    if kind = .unlinkRef ∧ getRefCntFromInfo (redo.savedRefCnt.setWidth 64) = 1 then
      let n := segmentOf (pageOf redo.refed)
      { m' with
        blocks := m'.blocks.setInfo n ⟨.potentialLeaking, (m'.blocks.sas n).info.threadFree⟩ }
    else m'

/-- The thread has lowered the count of this object from 1 to 0 by its CAS, and the
block is on no free list yet. -/
def Pc.dying : Pc → Option Nat
  | .write c refInfo _ | .bump c refInfo _ | .decide c refInfo _ =>
    if c.kind = .unlinkRef ∧ getRefCntFromInfo refInfo = 1 then some c.refed else none
  | .memset b | .owner b | .pushNext b | .pushLocal b | .infoFirst b | .infoLoad b | .infoCas b _ =>
    some b
  | _ => none

/-! ### What keeps the fields apart -/

/-- The new count fits into its 16 bits. -/
def Kind.fits (refCnt : Word) : Kind → Prop
  | .linkRef => refCnt.toNat + 1 < 2 ^ 16
  | .unlinkRef => 1 ≤ refCnt.toNat

instance (refCnt : Word) : (kind : Kind) → Decidable (kind.fits refCnt)
  | .linkRef => inferInstanceAs (Decidable (_ < _))
  | .unlinkRef => inferInstanceAs (Decidable (_ ≤ _))

/-- The thread has read its own era for the CAS it is about to make. -/
def Pc.readEra : Pc → Bool
  | .sawEra _ _ (some _) | .keepEra _ _ (some _) | .record _ _ _ | .cas _ _ _ => true
  | _ => false

/-- A CAS changes the count within its 16 bits, and the era a call found is not kept
over the own era of a thread that has read it for its CAS. -/
def isolated (s : Sys Mem Pc) (a : Act Op) : Prop :=
  match s.loc a.thread with
  | .cas c refInfo _ => s.mem.refInfo c.refed = refInfo → c.kind.fits (getRefCntFromInfo refInfo)
  | .keepEra _ refInfo _ => ∀ x ∈ List.range' 1 maxThread,
      (s.loc x).readEra = true → Mem.sawCell a.thread refInfo ≠ eraIdx x x
  | _ => True

instance (s : Sys Mem Pc) (a : Act Op) : Decidable (isolated s a) := by
  unfold isolated
  split <;> infer_instance

end ShmPcc.CxlRefInfo
