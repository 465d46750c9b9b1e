import ShmPcc.Ref.CxlLayout
import ShmPcc.Ref.CxlRefInfo

/-!
# The hash index of cxl-shm

Each thread has a hash table of 2^17 chains in shared memory. An item is an object of
three words, key, value and the reference to the next item; `put` of a thread works on
the thread's own table, `get` on the table that the top byte of the key names. A new
item is allocated like any object, filled, and linked to the end of its chain by
`link_reference`.

`word` holds the words of the tables and of the blocks by their offset, but for the
first word of a block, which is with the allocator. The metadata of segments and pages
are with the allocator as well. Everything is a sequence of accesses of one thread;
where the source would follow a null page because there is no segment left, the code
stops. `retries` bounds the loops.
-/

namespace ShmPcc.CxlHash

open CxlAlloc (pageOf segmentOf isBlock pageSize firstSegment sizeofCXLObj)
open Function
open CxlRefInfo (eraIdx RedoLog)
open CxlLayout (hashTableStart hashTableSize segmentsAreaStart)

structure Mem where
  blocks : CxlAlloc.Mem
  word : Nat → Nat
  era : Int → BitVec 32
  redo : Nat → Nat → RedoLog

/-- How many segments fit into the memory, and how often a loop may go round. -/
structure Config where
  segments : Nat
  retries : Nat

abbrev Code (α : Type) := Prog Unit Mem α

def load (a : Nat) : Code Nat := Prog.read () fun m => m.word a

def Mem.setWord (a v : Nat) (m : Mem) : Mem := { m with word := update m.word a v }

def store (a v : Nat) : Code Unit := Prog.write () (Mem.setWord a v)

def cas (a expected desired : Nat) : Code Bool :=
  Prog.rmw () (fun m => if m.word a = expected then m.setWord a desired else m)
    fun m => m.word a == expected

def onBlocks (f : CxlAlloc.Mem → CxlAlloc.Mem) (m : Mem) : Mem := { m with blocks := f m.blocks }

/-! ### Allocation -/

/-- The loop of `cxl_thread_free_collect`, from the block `tail` on. -/
def spread : Nat → Nat → Code Unit
  | 0, _ => Prog.halt
  | n + 1, tail =>
    if tail = 0 then pure ()
    else do
      let next ← Prog.rmw () (onBlocks (·.freeLocal tail)) fun m => m.blocks.next tail
      spread n next

/-- `cxl_page_free_collect` -/
def pageFreeCollect (C : Config) (u q : Nat) : Code Unit := do
  let threadFree ← Prog.read () fun m => (m.blocks.sas (segmentOf q)).info.threadFree
  if threadFree = 0 then pure ()
  else do
    let head ← Prog.rmw () (onBlocks (·.grab u (segmentOf q)))
      fun m => (m.blocks.sas (segmentOf q)).info.threadFree
    spread C.retries head
  Prog.write () (onBlocks (·.collectLocal q))

/-- `cxl_page_queue_find_free_ex`, over the pages of the queue. -/
def findFreeEx (C : Config) (u : Nat) : List Nat → Code (Option Nat)
  | [] => pure none
  | q :: rest => do
    pageFreeCollect C u q
    let free ← Prog.read () fun m => (m.blocks.page q).free
    if free ≠ 0 then pure (some q) else findFreeEx C u rest

/-- `cxl_segment_alloc`, from segment number `count` on, with `n` to try. -/
def segmentAlloc (u : Nat) : Nat → Nat → Code Bool
  | 0, _ => pure false
  | n + 1, count => do
    let free ← Prog.rmw ()
      (fun m => if (m.blocks.sas (firstSegment + count)).threadId = 0 then
          onBlocks (·.segmentAlloc u (firstSegment + count)) m
        else m)
      fun m => (m.blocks.sas (firstSegment + count)).threadId == 0
    if free then pure true else segmentAlloc u n (count + 1)

/-- `c` is a block of page `q`, and not the last one. -/
def isHeader (q blockSize c : Nat) : Bool :=
  pageOf c = q ∧ isBlock blockSize c ∧ c < q * pageSize + (pageSize / blockSize - 1) * blockSize

/-- `cxl_page_init` clears the headers of the blocks, but for the last one. -/
def cleared (q blockSize a : Nat) : Bool :=
  8 ≤ a ∧ isHeader q blockSize (a - 8) ∨ 16 ≤ a ∧ isHeader q blockSize (a - 16)

/-- Page `q` comes into use in queue `i`. -/
def Mem.pageFresh (u i q : Nat) (rest : List Nat) (m : Mem) : Mem :=
  { m with
    blocks := m.blocks.pageFresh u i q rest
    word := fun a => if cleared q (CxlAlloc.queueBlockSize i) a then 0 else m.word a }

/-- `cxl_page_fresh` -/
def pageFresh (C : Config) (u i : Nat) : Nat → Code Nat
  | 0 => Prog.halt
  | n + 1 => do
    let free ← Prog.read () fun m => (m.blocks.tls u).freePage
    match free with
    | q :: rest => do
      Prog.write () (Mem.pageFresh u i q rest)
      pure q
    | [] => do
      let done ← segmentAlloc u C.segments 0
      if done then pageFresh C u i n else Prog.halt

/-- `cxl_malloc_generic` -/
def mallocGeneric (C : Config) (u i : Nat) (qs : List Nat) : Code Nat := do
  Prog.write () fun m => { m with
    redo := update m.redo u fun _ => ⟨none, 0, 0, 0, 0⟩ }
  let page ← findFreeEx C u qs
  match page with
  | some q => pure q
  | none => pageFresh C u i C.retries

/-- `cxl_find_page` and `cxl_page_malloc`: the page whose first free block is taken. -/
def findPage (C : Config) (u i : Nat) : Code Nat := do
  let qs ← Prog.read () fun m => (m.blocks.tls u).pages i
  match qs with
  | [] => mallocGeneric C u i []
  | q :: rest => do
    let free ← Prog.read () fun m => (m.blocks.page q).free
    if free ≠ 0 then pure q else mallocGeneric C u i (q :: rest)

/-- `page->used++; page->free = block->next` -/
def Mem.take (u q : Nat) (m : Mem) : Mem :=
  onBlocks (fun blocks => (blocks.popFree u q).setPlace (blocks.page q).free (.out false)) m

/-! ### `link_reference` -/

def linkReference (u ref refed : Nat) : Nat → Code Unit
  | 0 => Prog.halt
  | n + 1 => do
    let refInfo ← load (refed + 8)
    let info := BitVec.ofNat 64 refInfo
    let curEra ← Prog.read () fun m => m.era (eraIdx u u)
    let ele ← Prog.read () fun m => m.era (CxlRefInfo.Mem.sawCell u info)
    if CxlRefInfo.sawEra info > ele then
      Prog.write () fun m => { m with
        era := update m.era (CxlRefInfo.Mem.sawCell u info) (CxlRefInfo.sawEra info) }
    else pure ()
    Prog.write () fun m => { m with
      redo := update m.redo u (update (m.redo u)
        (curEra &&& (BitVec.ofNat 32 CxlRefInfo.redoCachelineCnt - 1)).toNat
        ⟨some .linkRef, CxlRefInfo.refInfoCnt info, curEra, ref, refed⟩) }
    let done ← cas (refed + 8) refInfo (CxlRefInfo.newRefInfo u .linkRef info curEra).toNat
    if done then do
      store ref refed
      Prog.write () fun m => { m with
        era := update m.era (eraIdx u u) (m.era (eraIdx u u) + 1) }
    else linkReference u ref refed n

/-! ### `put` and `get` -/

/-- Where the chain of a key begins in a table. -/
def entryAddr (table key : Nat) : Nat :=
  hashTableStart + table * hashTableSize + 8 * (key &&& (2 ^ 17 - 1))

/-- What the loop over a chain comes to: the data of the item with the key, or the last
reference of the chain, which is null. -/
inductive Walk where
  | found (data : Nat)
  | missing (entry : Nat)
deriving DecidableEq

def walk (key : Nat) : Nat → Nat → Code Walk
  | 0, _ => Prog.halt
  | n + 1, entry => do
    let offset ← load entry
    if offset = 0 then pure (.missing entry)
    else do
      let data := offset + sizeofCXLObj
      let k ← load data
      if k = key then pure (.found data) else walk key n (data + 16)

/-- The block at `b` becomes an item. -/
def fill (u b key value : Nat) : Code Unit := do
  let era ← Prog.read () fun m => m.era (eraIdx u u)
  store (b + 8) (CxlRefInfo.packRefInfo (BitVec.ofNat 64 u) 0 era).toNat
  store (b + 16) 0
  store (b + sizeofCXLObj) key
  store (b + sizeofCXLObj + 8) value
  store (b + sizeofCXLObj + 16) 0

/-- The queue of the items' pages. -/
def itemQueue : Nat := CxlAlloc.pageQueue false (3 * 8 + sizeofCXLObj)

def put (C : Config) (u key value : Nat) : Code Unit := do
  let w ← walk key C.retries (entryAddr (u - 1) key)
  match w with
  | .found data => store (data + 8) value
  | .missing entry => do
    let q ← findPage C u itemQueue
    let b ← Prog.rmw () (Mem.take u q) fun m => (m.blocks.page q).free
    fill u b key value
    linkReference u entry b C.retries

def get (C : Config) (key : Nat) : Code (Option Nat) := do
  let w ← walk key C.retries (entryAddr (key >>> 56) key)
  match w with
  | .found data => do
    let value ← load (data + 8)
    pure (some value)
  | .missing _ => pure none

inductive Op where
  | put (key value : Nat)
  | get (key : Nat)

def obj (C : Config) : Obj Unit Mem Op (Option Nat) where
  code u op :=
    match op with
    | .put key value => do
      put C u key value
      pure none
    | .get key => get C key
  enter _ _ m := some m
  leave _ _ _ m := m

/-- No segment is owned, no page is in use and the tables are empty; the other words,
the eras and the redo records are anything. -/
structure Init (m : Mem) : Prop where
  page : ∀ q, m.blocks.page q = .zero
  segment : ∀ n, m.blocks.segment n = ⟨0, 0⟩
  sas : ∀ n, m.blocks.sas n = ⟨0, .normal, 0⟩
  freePage : ∀ t, (m.blocks.tls t).freePage = []
  pages : ∀ t i, (m.blocks.tls t).pages i = []
  place : ∀ b, m.blocks.place b = .none
  tables : ∀ a, hashTableStart ≤ a → a < segmentsAreaStart → m.word a = 0

end ShmPcc.CxlHash
