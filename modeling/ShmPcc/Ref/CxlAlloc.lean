import ShmPcc.Lib.Machine

/-!
# The block allocator of cxl-shm

Memory is cut into segments of 1024 pages of 64 KiB. A segment belongs to the
thread that took it; its first page holds its metadata, the others are cut into
blocks of one size when they come into use. A page has two lists of free blocks:
`free`, from which its owner allocates, and `local_free`, to which it frees. Other
threads free blocks by pushing them on the list `thread_free` of the segment, and
the owner takes that list as a whole and spreads it over its pages when it finds
no free block.

Offsets are numbers, 0 is the null offset, and the lists are threaded through the
first word of the blocks, which is a field of what is in the block while it is
handed out (`pptr` of a root reference). A page is named by its number `b /
pageSize`, a segment by its number `q / pagesPerSegment`; the first segment is
number 2. Page queues are lists of page numbers.

Each load and CAS of `sas->info` and `sas->thread_id` is one access. Everything
else an operation touches is private to the thread at that time, and what lies
between two accesses is one step, or several where there is a loop. A CAS that
fails spuriously only repeats its loop and is left out. `crashed` is what happens
when there is no segment left: the source dereferences a null page.

The field below the line in `Mem` is history: where each block is.
-/

namespace ShmPcc.CxlAlloc

open Function

def pageSize : Nat := 2 ^ 16

def pagesPerSegment : Nat := 1024

/-- `SEGMENTS_AREA_START / SEGMENT_SIZE` -/
def firstSegment : Nat := 2

def sizeofCXLObj : Nat := 24

def sizeofMessageQueue : Nat := 192

/-- `cxl_ptr_page` -/
def pageOf (b : Nat) : Nat := b / pageSize

/-- `cxl_ptr_segment` of a page -/
def segmentOf (q : Nat) : Nat := q / pagesPerSegment

/-- The offset is the start of a block in a page of blocks of this size. -/
def isBlock (blockSize b : Nat) : Bool :=
  (b % pageSize) % blockSize = 0 ∧ (b % pageSize) / blockSize < pageSize / blockSize

structure Page where
  free : Nat
  localFree : Nat
  blockSize : Nat
  used : Nat
  isMsgQueuePage : Bool
deriving DecidableEq

/-- The page after `memset`. -/
def Page.zero : Page := ⟨0, 0, 0, 0, false⟩

structure Segment where
  threadId : Nat
  used : Nat
deriving DecidableEq

inductive SegmentState where
  | normal
  | abandon
  | potentialLeaking
deriving DecidableEq

/-- `state_free_info` -/
structure Info where
  state : SegmentState
  threadFree : Nat
deriving DecidableEq

/-- `cxl_segment_allocation_state_t`; the thread id is 0 where nobody owns the
segment. -/
structure Sas where
  threadId : Nat
  info : Info
deriving DecidableEq

/-- The page queues of a thread. -/
structure Tls where
  pages : Nat → List Nat
  freePage : List Nat

/-- Where a block is: in no page in use, on one of the lists, in the hands of an
operation of a thread, or handed out, as a special block or as an object. -/
inductive Place where
  | none
  | free
  | localFree
  | threadFree
  | held (u : Nat)
  | out (special : Bool)
deriving DecidableEq

structure Mem where
  /-- The first word of the blocks. -/
  next : Nat → Nat
  page : Nat → Page
  segment : Nat → Segment
  sas : Nat → Sas
  tls : Nat → Tls
  -- history
  place : Nat → Place

/-! ### Page queues -/

/-- `cxl_page_queue`: which queue has the pages for a size. -/
def pageQueue (special : Bool) (size : Nat) : Nat :=
  if special ∧ size = 16 then 0
  else if special ∧ size = sizeofMessageQueue then 1
  else (size - 1) / 16 + 2

/-- The block sizes `thread_init` gives the queues. -/
def queueBlockSize (i : Nat) : Nat :=
  if i = 0 then 16 else if i = 1 then 16 * ((sizeofMessageQueue - 1) / 16) + 16 else 16 * (i - 1)

def Mem.setPage (m : Mem) (q : Nat) (p : Page) : Mem :=
  { m with page := update m.page q p }

def Mem.setNext (m : Mem) (b v : Nat) : Mem :=
  { m with next := update m.next b v }

def Mem.setPlace (m : Mem) (b : Nat) (p : Place) : Mem :=
  { m with place := update m.place b p }

def Mem.setInfo (m : Mem) (n : Nat) (info : Info) : Mem :=
  { m with sas := update m.sas n { m.sas n with info := info } }

/-- `cxl_page_queue_push` -/
def Mem.pushPage (m : Mem) (u i q : Nat) : Mem :=
  { m with
    tls := update m.tls u { m.tls u with
      pages := update (m.tls u).pages i (q :: (m.tls u).pages i) } }

/-- `cxl_page_queue_remove` -/
def Mem.removePage (m : Mem) (u i q : Nat) : Mem :=
  { m with
    tls := update m.tls u { m.tls u with
      pages := update (m.tls u).pages i (((m.tls u).pages i).erase q) } }

def Mem.setFreePage (m : Mem) (u : Nat) (qs : List Nat) : Mem :=
  { m with tls := update m.tls u { m.tls u with freePage := qs } }

/-! ### What operations do to blocks and pages -/

/-- The push of a block on `local_free` of its page, in `cxl_free` and in the loop
of `cxl_thread_free_collect`. -/
def Mem.freeLocal (m : Mem) (b : Nat) : Mem :=
  let p := m.page (pageOf b)
  ((m.setNext b p.localFree).setPage (pageOf b)
    { p with localFree := b, used := p.used - 1 }).setPlace b .localFree

/-- The end of `cxl_page_free_collect`. -/
def Mem.collectLocal (m : Mem) (q : Nat) : Mem :=
  let p := m.page q
  if p.localFree ≠ 0 ∧ p.free = 0 then
    { m.setPage q { p with free := p.localFree, localFree := 0 } with
      place := fun b => if pageOf b = q ∧ m.place b = .localFree then .free else m.place b }
  else m

/-- `page->used++; page->free = b->next` for the head `b` of `free`. -/
def Mem.popFree (m : Mem) (u q : Nat) : Mem :=
  let p := m.page q
  (m.setPage q { p with used := p.used + 1, free := m.next p.free }).setPlace p.free (.held u)

/-- The owner's CAS on `info`, which takes the whole list. -/
def Mem.grab (m : Mem) (u n : Nat) : Mem :=
  { m.setInfo n { (m.sas n).info with threadFree := 0 } with
    place := fun b =>
      if segmentOf (pageOf b) = n ∧ m.place b = .threadFree then .held u else m.place b }

/-- `cxl_page_init`: the blocks are threaded in their order, the last one in front
of what `free` was. -/
def Mem.pageInit (m : Mem) (q blockSize : Nat) : Mem :=
  let last := q * pageSize + (pageSize / blockSize - 1) * blockSize
  { m.setPage q ⟨q * pageSize, 0, blockSize, 0, false⟩ with
    next := fun b =>
      if pageOf b = q ∧ isBlock blockSize b then
        if b < last then b + blockSize else (m.page q).free
      else m.next b
    place := fun b => if pageOf b = q ∧ isBlock blockSize b then .free else m.place b }

/-- `cxl_segment_page_alloc` of the free page `q`, with `cxl_page_init` and the push
into queue `i`. -/
def Mem.pageFresh (m : Mem) (u i q : Nat) (rest : List Nat) : Mem :=
  let n := segmentOf q
  let m' := (m.setFreePage u rest).pageInit q (queueBlockSize i)
  { m'.setPage q { m'.page q with isMsgQueuePage := decide (i = 1) } with
    segment := update m.segment n { m.segment n with used := (m.segment n).used + 1 } }
    |>.pushPage u i q

/-- `cxl_segment_alloc`, after the CAS that took segment `n`. -/
def Mem.segmentAlloc (m : Mem) (u n : Nat) : Mem :=
  { m with
    sas := update m.sas n ⟨u, ⟨.normal, 0⟩⟩
    segment := update m.segment n ⟨u, 0⟩ }
    |>.setFreePage u
      ((List.range' 1 (pagesPerSegment - 1)).map (n * pagesPerSegment + ·) ++ (m.tls u).freePage)

/-- `cxl_page_free` -/
def Mem.pageFree (m : Mem) (u i q : Nat) : Mem :=
  let n := segmentOf q
  { (m.removePage u i q).setPage q .zero with
    segment := update m.segment n { m.segment n with used := (m.segment n).used - 1 }
    place := fun b => if pageOf b = q then .none else m.place b }
    |>.setFreePage u (q :: (m.tls u).freePage)

/-- `cxl_segment_free` -/
def Mem.segmentFree (m : Mem) (u n : Nat) : Mem :=
  { m with
    page := fun q => if segmentOf q = n then .zero else m.page q
    segment := update m.segment n ⟨0, 0⟩
    sas := update m.sas n { m.sas n with threadId := 0 } }
    |>.setFreePage u ((m.tls u).freePage.filter fun q => segmentOf q ≠ n)

/-! ### Threads -/

/-- What is being allocated: the root reference of `cxl_malloc`, then its object of
the given size, or a message queue. -/
inductive Req where
  | tbr (size : Nat)
  | obj (size tbr : Nat)
  | queue
deriving DecidableEq

def Req.bin : Req → Nat
  | .tbr _ => pageQueue true 16
  | .obj size _ => pageQueue false size
  | .queue => pageQueue true sizeofMessageQueue

inductive Pc where
  | idle
  | crashed
  -- allocation
  | find (req : Req)
  | scan (req : Req) (rest : List Nat)
  | peek (req : Req) (q : Nat) (rest : List Nat)
  | grabLoad (req : Req) (q : Nat) (rest : List Nat)
  | grabCas (req : Req) (q : Nat) (rest : List Nat) (info : Info)
  | spread (req : Req) (q : Nat) (rest : List Nat) (tail : Nat)
  | pick (req : Req) (q : Nat) (rest : List Nat)
  | fresh (req : Req)
  | segmentCas (req : Req) (count : Nat)
  | take (req : Req) (q : Nat)
  -- cxl_free
  | free (special : Bool) (b : Nat)
  | releasePage (q i : Nat)
  | releaseSegment (n : Nat)
  | pushFirst (b : Nat)
  | pushLoad (b : Nat)
  | pushCas (b : Nat) (info : Info)
deriving DecidableEq

inductive Op where
  | malloc (dataSize : Nat)
  | msgQueueAlloc
  | free (special : Bool) (b : Nat)
  /-- The first word of what is handed out is its owner's (`pptr` of a root reference,
  `start` of a queue). -/
  | use (b v : Nat)

/-- Thread ids count from 1. Only what is handed out is used, and freed as what it
is. -/
def call (u : Nat) (op : Op) : Pc → Mem → Option (Pc × Mem)
  | .idle, m =>
    if u = 0 then none
    else
      match op with
      | .malloc dataSize =>
        if dataSize + sizeofCXLObj ≤ 1024 then some (.find (.tbr (dataSize + sizeofCXLObj)), m)
        else none
      | .msgQueueAlloc => some (.find .queue, m)
      | .free special b =>
        if m.place b = .out special then some (.free special b, m.setPlace b (.held u)) else none
      | .use b v =>
        if m.place b = .out true ∨ m.place b = .out false then some (.idle, m.setNext b v)
        else none
  | _, _ => none

/-- The block is the head of `free` of page `q`; what follows `cxl_page_malloc`. -/
def takeBlock (u q : Nat) (m : Mem) : Req → Pc × Mem
  | .tbr size =>
    let b := (m.page q).free
    (.find (.obj size b), (m.popFree u q).setNext b 0)
  | .obj _ tbr =>
    let b := (m.page q).free
    (.idle, (((m.setNext tbr b).popFree u q).setPlace tbr (.out true)).setPlace b (.out false))
  | .queue =>
    let b := (m.page q).free
    (.idle, ((m.popFree u q).setNext b 0).setPlace b (.out true))

/-- The next step of thread `u`; `segments` segments fit into the memory. -/
def run (segments u : Nat) : Pc → Mem → Option (Pc × Mem)
  | .idle, _ => none
  | .crashed, _ => none
  | .find req, m =>
    match (m.tls u).pages req.bin with
    | [] => some (.scan req [], m)
    | q :: rest => some (if (m.page q).free = 0 then .scan req (q :: rest) else .take req q, m)
  | .scan req [], m => some (.fresh req, m)
  | .scan req (q :: rest), m => some (.peek req q rest, m)
  | .peek req q rest, m =>
    some (if (m.sas (segmentOf q)).info.threadFree = 0 then .pick req q rest
      else .grabLoad req q rest, m)
  | .grabLoad req q rest, m => some (.grabCas req q rest (m.sas (segmentOf q)).info, m)
  | .grabCas req q rest info, m =>
    if (m.sas (segmentOf q)).info = info then
      some (.spread req q rest info.threadFree, m.grab u (segmentOf q))
    else some (.grabLoad req q rest, m)
  | .spread req q rest tail, m =>
    if tail = 0 then some (.pick req q rest, m)
    else some (.spread req q rest (m.next tail), m.freeLocal tail)
  | .pick req q rest, m =>
    some (if ((m.collectLocal q).page q).free = 0 then .scan req rest else .take req q,
      m.collectLocal q)
  | .fresh req, m =>
    match (m.tls u).freePage with
    | [] => some (.segmentCas req 0, m)
    | q :: rest => some (.take req q, m.pageFresh u req.bin q rest)
  | .segmentCas req count, m =>
    if count < segments then
      if (m.sas (firstSegment + count)).threadId = 0 then
        some (.fresh req, m.segmentAlloc u (firstSegment + count))
      else some (.segmentCas req (count + 1), m)
    else some (.crashed, m)
  | .take req q, m => some (takeBlock u q m req)
  | .free special b, m =>
    if (m.segment (segmentOf (pageOf b))).threadId = u then
      let m' := (m.setNext b 0).freeLocal b
      some (if (m'.page (pageOf b)).used = 0 then
          .releasePage (pageOf b) (pageQueue special (m'.page (pageOf b)).blockSize)
        else .idle, m')
    else some (.pushFirst b, m.setNext b 0)
  | .releasePage q i, m =>
    some (if ((m.pageFree u i q).segment (segmentOf q)).used = 0 then
        .releaseSegment (segmentOf q) else .idle, m.pageFree u i q)
  | .releaseSegment n, m => some (.idle, m.segmentFree u n)
  | .pushFirst b, m => some (.pushLoad b, m)
  | .pushLoad b, m =>
    let info := (m.sas (segmentOf (pageOf b))).info
    if info.state = .potentialLeaking then some (.idle, m)
    else some (.pushCas b info, m.setNext b info.threadFree)
  | .pushCas b info, m =>
    let n := segmentOf (pageOf b)
    if (m.sas n).info = info then
      some (.idle, (m.setInfo n ⟨info.state, b⟩).setPlace b .threadFree)
    else some (.pushLoad b, m)

def machine (segments : Nat) : Machine Mem Pc Op where
  call := call
  run := run segments

/-- No segment is owned and no page is in use; the words of the blocks are anything. -/
def fresh (s : Sys Mem Pc) : Prop :=
  (∀ q, s.mem.page q = .zero) ∧ (∀ n, s.mem.segment n = ⟨0, 0⟩) ∧
    (∀ n, s.mem.sas n = ⟨0, .normal, 0⟩) ∧ (∀ t, (s.mem.tls t).freePage = []) ∧
    (∀ t i, (s.mem.tls t).pages i = []) ∧ (∀ b, s.mem.place b = .none) ∧ ∀ u, s.loc u = .idle

end ShmPcc.CxlAlloc
