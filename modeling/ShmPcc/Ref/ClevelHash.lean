import ShmPcc.Lib.Pool

/-!
# `clevel_hash`: a multi-level hash table with a background rehasher

The reference semantics of `ClevelHash/clevel_hash.hpp`, in the plain build
(`OPT_CLEVEL_ROOT_READ` off). The table is a chain of levels of doubling
capacity. An item sits in one of two buckets of one of the levels; inserts
append a level on top when they find no room, and one background thread moves
the items of the bottom level to the top level, bucket by bucket, and then
drops the bottom level. Readers and writers work on a snapshot of the published
`level_meta` and compare it with the published one afterwards.

One atomic step is one load, store or compare-exchange of a slot, of an `up`
pointer or of `meta`, or one access to a key-value entry.

Pointers are what can be told apart through them. A level becomes visible when
it is compare-exchanged into the `up` pointer of the level below it, so a level
is its position in the chain, and its capacity follows from the position. A
`level_meta` becomes visible when it is published and is neither changed nor
freed after that, so a meta pointer is the number of the publication. A
key-value entry is the address that `new` returned for it, which is a parameter
of the operation that allocates; `delete` gives the address back, and using an
entry that is not there stops the thread.

Every `while (true)` is given a number of rounds, `retries`; a thread that uses
them up stops, like a thread that is never scheduled again.

The last six fields of the memory are bookkeeping that no code reads: how far
the rehasher is inside its bucket, which addresses are private to a thread, and
which operations were called on a key or are running.
-/

namespace ShmPcc.ClevelHash

abbrev Word := BitVec 64

def hash64shift (key : Word) : Word :=
  let key := (~~~key) + (key <<< 21)
  let key := key ^^^ (key >>> 24)
  let key := (key + (key <<< 3)) + (key <<< 8)
  let key := key ^^^ (key >>> 14)
  let key := (key + (key <<< 2)) + (key <<< 4)
  let key := key ^^^ (key >>> 28)
  key + (key <<< 31)

def maxLevel : Nat := 16

def assocNum : Nat := 4

def getPartial (hv : Word) : BitVec 16 := (hv >>> 48).setWidth 16

def firstIndex (hv : Word) (capacity : Nat) : Nat := hv.toNat % (capacity / 2)

def hashOfTag (par : BitVec 16) : Word :=
  let nonzeroTag : BitVec 16 := (par >>> 1 <<< 1) + 1
  nonzeroTag.setWidth 64 * 0xc6a4a7935bd1e995#64

def secondIndex (par : BitVec 16) (idx capacity : Nat) : Nat :=
  (BitVec.ofNat 64 idx ^^^ hashOfTag par).toNat % (capacity / 2) + capacity / 2

def altIndex (par : BitVec 16) (idx capacity : Nat) : Nat :=
  if idx < capacity / 2 then
    (BitVec.ofNat 64 idx ^^^ hashOfTag par).toNat % (capacity / 2) + capacity / 2
  else (BitVec.ofNat 64 idx ^^^ hashOfTag par).toNat % (capacity / 2)

/-! ## `KV_entry_ptr`: an address with 16 bits of the hash above it -/

def addr (p : Word) : Word := p &&& 0xFFFFFFFFFFFF#64

def partialOf (p : Word) : BitVec 16 := (p >>> 48).setWidth 16

def setPartial (p : Word) (par : BitVec 16) : Word :=
  (p &&& 0xFFFFFFFFFFFF#64) ||| (par.setWidth 64 <<< 48)

/-! ## Memory -/

structure Slot where
  level : Nat
  bucket : Nat
  slot : Nat
deriving DecidableEq

structure Meta where
  firstLevel : Nat
  lastLevel : Nat
  isResizing : Bool
deriving DecidableEq

/-- The operations. `kv` is the address that `new` returns for the entry the
operation creates; `resize` is one round of the rehasher's loop. -/
inductive Op (K T : Type) where
  | insert (key : K) (value : T) (kv : Word)
  | update (key : K) (value : T) (kv : Word)
  | erase (key : K)
  | search (key : K)
  | resize
deriving DecidableEq

/-- What the rehasher has in hand: the word it read from its slot, and the slot
it copied the word to. -/
inductive Hold where
  | none
  | held (w : Word)
  | copied (w : Word) (dst : Slot)
deriving DecidableEq

structure Mem (K T : Type) where
  /-- The published `level_meta`. -/
  metaPtr : Nat
  metas : Nat → Meta
  /-- How many levels are linked. -/
  levels : Nat
  slots : Slot → Word
  /-- The word in front of a level's bucket array. -/
  before : Nat → Word
  entries : Word → Option (K × T)
  /-- The local variable of `resize`. -/
  expandBucket : Nat
  cursor : Nat
  hold : Hold
  owner : Word → Option Nat
  ops : List (Nat × Op K T)
  calls : K → List (Op K T)

/-- The result record `ret`; `value` is the entry behind the pointer. -/
structure Ret (K T : Type) where
  found : Bool := false
  levelIdx : Nat := 0
  bucketIdx : Nat := 0
  slotIdx : Nat := 0
  expanded : Bool := false
  capacity : Nat := 0
  value : Option (K × T) := none
deriving DecidableEq

/-- The accesses of the code; a compare-exchange that takes a word `e` out of a
slot says so. -/
inductive Site where
  | metaLoad
  | metaCas
  | upLoad (level : Nat)
  | upCas (level : Nat)
  | slotLoad (q : Slot)
  | insertCas (q : Slot)
  | updateCas (q : Slot) (e : Word)
  | eraseCas (q : Slot) (e : Word)
  | dupCas (q : Slot) (e : Word)
  | dupDeleteCas (q : Slot) (e : Word)
  | copyCas (dst : Slot)
  | slotClear (q : Slot)
  | entryLoad (a : Word)
  | entryNew (a : Word)
  | entryDelete (a : Word)
  | expandBucket
deriving DecidableEq

/-- A table: the hash function and `HashPower`, and the number of rounds given
to each unbounded loop. -/
structure Table (K : Type) where
  hasher : K → Word
  hashpower : Nat
  retries : Nat

variable {K T : Type}

abbrev Code (K T α : Type) := Prog Site (Mem K T) α

/-- The constructor makes a level of `1 << (hashpower - 1)` buckets below one of
twice as many, and `expand` doubles again. -/
def Table.capacity (H : Table K) : Nat → Nat
  | 0 => 2 ^ (H.hashpower - 1)
  | level + 1 => H.capacity level * 2

def Table.par (H : Table K) (key : K) : BitVec 16 := getPartial (H.hasher key)

/-- The two buckets of a key in a level. -/
def Table.fIdx (H : Table K) (key : K) (level : Nat) : Nat :=
  firstIndex (H.hasher key) (H.capacity level)

def Table.sIdx (H : Table K) (key : K) (level : Nat) : Nat :=
  secondIndex (H.par key) (H.fIdx key level) (H.capacity level)

namespace Mem

def cur (m : Mem K T) : Meta := m.metas m.metaPtr

/-- The slot the rehasher is at. -/
def src (m : Mem K T) : Slot := ⟨m.cur.lastLevel, m.expandBucket, m.cursor⟩

def disown (a : Word) (m : Mem K T) : Mem K T :=
  { m with owner := Function.update m.owner a none }

def own (t : Nat) (a : Word) (m : Mem K T) : Mem K T :=
  { m with owner := Function.update m.owner a (some t) }

/-- Thread `t` has an entry at address `a` that is in no slot. -/
def allocate (t : Nat) (a : Word) (kv : K × T) (m : Mem K T) : Mem K T :=
  own t a { m with entries := Function.update m.entries a (some kv) }

def release (a : Word) (m : Mem K T) : Mem K T :=
  disown a { m with entries := Function.update m.entries a none }

end Mem

/-! ## Accesses -/

def loadMeta : Code K T (Nat × Meta) :=
  Prog.read .metaLoad fun m => (m.metaPtr, m.cur)

def casMeta (expected : Nat) (desired : Meta) (note : Mem K T → Mem K T) : Code K T Bool :=
  Prog.rmw .metaCas
    (fun m =>
      if m.metaPtr = expected then
        note { m with
          metaPtr := m.metaPtr + 1
          metas := Function.update m.metas (m.metaPtr + 1) desired }
      else m)
    (fun m => m.metaPtr == expected)

def loadUp (level : Nat) : Code K T (Option Nat) :=
  Prog.read (.upLoad level) fun m =>
    if level + 1 < m.levels then some (level + 1) else none

/-- The compare-exchange of a null `up` pointer with a new level. -/
def casUp (level : Nat) : Code K T Bool :=
  Prog.rmw (.upCas level)
    (fun m => if level + 1 = m.levels then { m with levels := m.levels + 1 } else m)
    (fun m => level + 1 == m.levels)

def loadSlot (q : Slot) : Code K T Word :=
  Prog.read (.slotLoad q) fun m => m.slots q

def casSlot (l : Site) (q : Slot) (expected desired : Word) (note : Mem K T → Mem K T) :
    Code K T Bool :=
  Prog.rmw l
    (fun m =>
      if m.slots q = expected then
        note { m with slots := Function.update m.slots q desired }
      else m)
    (fun m => m.slots q == expected)

/-- `->first` and `->second` of an entry. -/
def loadEntry (a : Word) : Code K T (K × T) :=
  .step (.entryLoad a) id fun m =>
    match m.entries a with
    | some kv => .ret kv
    | none => .halt

/-- `new value_type(..)` at address `a`, where nothing is. -/
def newEntry (t : Nat) (a : Word) (kv : K × T) : Code K T Unit :=
  .step (.entryNew a)
    (fun m =>
      if a ≠ 0 ∧ addr a = a ∧ m.entries a = none then m.allocate t a kv else m)
    (fun m => if a ≠ 0 ∧ addr a = a ∧ m.entries a = none then .ret () else .halt)

def deleteEntry (a : Word) : Code K T Unit :=
  Prog.write (.entryDelete a) (Mem.release a)

/-! ## `search` -/

section Code

variable [DecidableEq K] (H : Table K)

/-- The loop over the slots of one bucket, with `n` slots to go. -/
def searchBucket (key : K) (level bucket : Nat) : Nat → Nat → Code K T (Option (Nat × (K × T)))
  | 0, _ => pure none
  | n + 1, j => do
    let slot ← loadSlot ⟨level, bucket, j⟩
    if partialOf slot = H.par key ∧ addr slot ≠ 0 then do
      let kv ← loadEntry (addr slot)
      if kv.1 = key then pure (some (j, kv))
      else searchBucket key level bucket n (j + 1)
    else searchBucket key level bucket n (j + 1)

/-- How many levels a snapshot spans. -/
def Meta.span (m : Meta) : Nat := m.firstLevel - m.lastLevel + 1

def searchLevels (key : K) (m : Meta) : Nat → Nat → Nat → Code K T (Option (Ret K T))
  | 0, _, _ => Prog.halt
  | n + 1, li, i => do
    let f ← searchBucket H key li (H.fIdx key li) assocNum 0
    match f with
    | some (j, kv) => pure (some
        { found := true, levelIdx := i % 256, bucketIdx := H.fIdx key li, slotIdx := j,
          value := some kv })
    | none => do
      let s ← searchBucket H key li (H.sIdx key li) assocNum 0
      match s with
      | some (j, kv) => pure (some
          { found := true, levelIdx := i % 256, bucketIdx := H.sIdx key li, slotIdx := j,
            value := some kv })
      | none => do
        let nextLi ← loadUp li
        if li = m.firstLevel then pure none
        else match nextLi with
          | some nextLi => searchLevels key m n nextLi (i + 1)
          | none => Prog.halt

def searchLoop (key : K) : Nat → Nat → Meta → Code K T (Ret K T)
  | 0, _, _ => Prog.halt
  | n + 1, ptr, m => do
    let r ← searchLevels H key m m.span m.lastLevel 0
    match r with
    | some r => pure r
    | none => do
      let tmp ← loadMeta
      if tmp.1 = ptr then pure {} else searchLoop key n tmp.1 tmp.2

def search (key : K) : Code K T (Ret K T) := do
  let m ← loadMeta
  searchLoop H key H.retries m.1 m.2

/-! ## `find` and `find_empty_slot` -/

inductive FCode where
  | absentAndNoVacancy
  | foundInLeft
  | foundInRight
  | vacancyInLeft
  | vacancyInRight
deriving DecidableEq

inductive Side where
  | left
  | right
deriving DecidableEq

def FCode.found : Side → FCode
  | .left => .foundInLeft
  | .right => .foundInRight

def FCode.vacancy : Side → FCode
  | .left => .vacancyInLeft
  | .right => .vacancyInRight

def FCode.isFound (c : FCode) : Bool := c = .foundInLeft || c = .foundInRight

def FCode.isVacancy (c : FCode) : Bool := c = .vacancyInLeft || c = .vacancyInRight

/-- The local variables and reference parameters of `find`. -/
structure Find where
  result : FCode := .absentAndNoVacancy
  oldE : Word := 0
  e : Option Slot := none
  lastBucketEntry : Option Slot := none
  levelNum : Nat := 0
  idx : Nat := 0
  slotIdx : Nat := 0
  prevE : Word := 0
  prevI : Nat := 0

/-- How a pass of `find` goes on after a slot: with the next one, by returning,
or with `goto RETRY_FIND`. -/
inductive Visit where
  | next (f : Find) (foundEmptyInB : Bool)
  | done (f : Find)
  | retry (f : Find)

/-- What a call of `find` is for: the key, whether duplicates are deleted on the
way, and whether the caller wants `last_bucket_entry`. -/
structure Query (K : Type) where
  key : K
  fixDup : Bool
  trackLast : Bool

def delDup (t : Nat) (p1 p2 : Slot) (e1 e2 : Word) : Code K T Unit := do
  let w1 ← loadSlot p1
  if e1 ≠ w1 then pure ()
  else do
    let w2 ← loadSlot p2
    if e2 ≠ w2 then pure ()
    else if partialOf e1 = partialOf e2 then
      if e1 = e2 then do
        let _ ← casSlot (.dupCas p2 e2) p2 e2 0 id
        pure ()
      else do
        let kv1 ← loadEntry (addr e1)
        let kv2 ← loadEntry (addr e2)
        if kv1.1 = kv2.1 then do
          let done ← casSlot (.dupDeleteCas p2 e2) p2 e2 0 (Mem.own t (addr e2))
          if done then deleteEntry (addr e2) else pure ()
        else pure ()
    else pure ()

/-- Where `last_bucket_entry` points after slot `q` was noted. -/
def Find.noteLast (f : Find) (track : Bool) (q : Slot) : Option Slot :=
  if track = true ∧ q.bucket ≠ 0 then some ⟨q.level, q.bucket - 1, 0⟩ else f.lastBucketEntry

/-- One slot of a bucket on `side` of level number `i`. -/
def visitSlot (t : Nat) (query : Query K) (levels : List Nat) (side : Side) (i : Nat) (q : Slot)
    (f : Find) (foundEmptyInB : Bool) : Code K T Visit := do
  let w ← loadSlot q
  if addr w = 0 then
    if f.result.isFound = false ∧ foundEmptyInB = false then
      -- the less loaded bucket is preferred
      if side = .right ∧ f.result = .vacancyInLeft ∧ f.levelNum = i ∧ f.slotIdx ≤ q.slot then
        pure (.next f true)
      else pure (.next { f with
          result := .vacancy side, oldE := w, e := some q,
          lastBucketEntry := f.noteLast query.trackLast q,
          levelNum := i, idx := q.bucket, slotIdx := q.slot } true)
    else pure (.next f foundEmptyInB)
  else if partialOf w ≠ H.par query.key then pure (.next f foundEmptyInB)
  else do
    let kv ← loadEntry (addr w)
    if kv.1 ≠ query.key then pure (.next f foundEmptyInB)
    else if query.fixDup = false then
      pure (.done { f with
        result := .found side, levelNum := i, idx := q.bucket, slotIdx := q.slot })
    else if f.result.isFound = true then
      match levels[f.levelNum]? with
      | none => Prog.halt
      | some prevLevel =>
        -- `assert(false)`: the same entry twice in one level
        if w = f.prevE ∧ i ≤ f.prevI then Prog.halt
        else do
          delDup t q ⟨prevLevel, f.idx, f.slotIdx⟩ w f.prevE
          pure (.retry f)
    else pure (.next { f with
        result := .found side, oldE := w, e := some q,
        lastBucketEntry := f.noteLast query.trackLast q,
        levelNum := i, idx := q.bucket, slotIdx := q.slot, prevE := w, prevI := i } foundEmptyInB)

/-- The slots of one bucket from slot `j` on, with `n` to go. -/
def visitBucket (t : Nat) (query : Query K) (levels : List Nat) (side : Side)
    (i level bucket : Nat) : Nat → Nat → Find → Bool → Code K T Visit
  | 0, _, f, _ => pure (.next f false)
  | n + 1, j, f, foundEmptyInB => do
    let v ← visitSlot H t query levels side i ⟨level, bucket, j⟩ f foundEmptyInB
    match v with
    | .next f foundEmptyInB =>
      visitBucket t query levels side i level bucket n (j + 1) f foundEmptyInB
    | .done f => pure (.done f)
    | .retry f => pure (.retry f)

/-- The remaining levels of a pass, bottom to top, the first of them number `i`. -/
def visitLevels (t : Nat) (query : Query K) (levels : List Nat) :
    List Nat → Nat → Find → Code K T Visit
  | [], _, f => pure (.next f false)
  | cl :: rest, i, f => do
    let v ← visitBucket H t query levels .left i cl (H.fIdx query.key cl) assocNum 0 f false
    match v with
    | .done f => pure (.done f)
    | .retry f => pure (.retry f)
    | .next f _ => do
      let v ← visitBucket H t query levels .right i cl (H.sIdx query.key cl) assocNum 0 f false
      match v with
      | .done f => pure (.done f)
      | .retry f => pure (.retry f)
      | .next f _ => visitLevels t query levels rest (i + 1) f

/-- The array `levels`, with room for `n` more; writing past it stops the
thread. -/
def collectLevels (m : Meta) : Nat → Nat → Code K T (List Nat)
  | 0, _ => Prog.halt
  | n + 1, li => do
    let nextLi ← loadUp li
    if li = m.firstLevel then pure [li]
    else match nextLi with
      | some nextLi => do
        let rest ← collectLevels m n nextLi
        pure (li :: rest)
      | none => Prog.halt

/-- The passes of `find` over the snapshot `m`, published as `ptr`. -/
def findLoop (t : Nat) (query : Query K) : Nat → Nat → Meta → Option Slot → Code K T Find
  | 0, _, _, _ => Prog.halt
  | n + 1, ptr, m, last => do
    let levels ← collectLevels m maxLevel m.lastLevel
    let v ← visitLevels H t query levels levels 0 { lastBucketEntry := last }
    match v with
    | .done f => pure f
    | .retry f => findLoop t query n ptr m f.lastBucketEntry
    | .next f _ => do
      let tmp ← loadMeta
      if tmp.1 = ptr then pure f
      else findLoop t query n tmp.1 tmp.2 f.lastBucketEntry

def find (t : Nat) (query : Query K) (ptr : Nat) (m : Meta) : Code K T Find :=
  findLoop H t query H.retries ptr m none

/-- The first empty slot of a bucket; the rest of the bucket is not loaded. -/
def emptyInBucket (level bucket : Nat) : Nat → Nat → Code K T (Option Nat)
  | 0, _ => pure none
  | n + 1, j => do
    let w ← loadSlot ⟨level, bucket, j⟩
    if addr w = 0 then pure (some j) else emptyInBucket level bucket n (j + 1)

def Find.vacant (side : Side) (q : Slot) (levelNum : Nat) : Find :=
  { result := .vacancy side, e := some q, levelNum := levelNum, slotIdx := q.slot }

/-- The levels of `find_empty_slot`, top to bottom: the head of the list is
level number `rest.length`. -/
def emptyInLevels (key : K) : List Nat → Code K T Find
  | [] => pure {}
  | cl :: rest => do
    let l ← emptyInBucket cl (H.fIdx key cl) assocNum 0
    let r ← emptyInBucket cl (H.sIdx key cl) assocNum 0
    match l, r with
    | none, none => emptyInLevels key rest
    | some j, none => pure (.vacant .left ⟨cl, H.fIdx key cl, j⟩ rest.length)
    | none, some j => pure (.vacant .right ⟨cl, H.sIdx key cl, j⟩ rest.length)
    | some j, some j' =>
      -- the less loaded bucket is preferred
      if j ≤ j' then pure (.vacant .left ⟨cl, H.fIdx key cl, j⟩ rest.length)
      else pure (.vacant .right ⟨cl, H.sIdx key cl, j'⟩ rest.length)

def findEmptySlotLoop (key : K) : Nat → Nat → Meta → Code K T (Find × Nat × Meta)
  | 0, _, _ => Prog.halt
  | n + 1, ptr, m => do
    let levels ← collectLevels m maxLevel m.lastLevel
    let f ← emptyInLevels H key levels.reverse
    let tmp ← loadMeta
    if tmp.1 = ptr then pure (f, ptr, m) else findEmptySlotLoop key n tmp.1 tmp.2

/-- The snapshot is a reference parameter here: it is returned as well. -/
def findEmptySlot (key : K) (ptr : Nat) (m : Meta) : Code K T (Find × Nat × Meta) :=
  findEmptySlotLoop H key H.retries ptr m

/-! ## `expand` -/

/-- The loop that publishes a larger `first_level`, or `is_resizing`. -/
def publishLoop (newCapacity : Nat) : Nat → Nat → Meta → Code K T Unit
  | 0, _, _ => Prog.halt
  | n + 1, ptr, m => do
    let up ← (if newCapacity ≤ H.capacity m.firstLevel then pure (some m.firstLevel)
      else loadUp m.firstLevel)
    match up with
    | none => Prog.halt
    | some firstLevel => do
      let done ← casMeta ptr ⟨firstLevel, m.lastLevel, true⟩ id
      if done then pure ()
      else do
        let m ← loadMeta
        if newCapacity ≤ H.capacity m.2.firstLevel ∧ m.2.isResizing = true then pure ()
        else publishLoop newCapacity n m.1 m.2

def expand (ptr : Nat) (m : Meta) : Code K T Unit := do
  let up ← loadUp m.firstLevel
  match up with
  | none => do
    let _ ← casUp m.firstLevel
    publishLoop H (H.capacity m.firstLevel * 2) H.retries ptr m
  | some _ => do
    let tmp ← loadMeta
    if tmp.1 = ptr then publishLoop H (H.capacity m.firstLevel) H.retries ptr m
    else pure ()

/-! ## `generic_insert`, `erase` and `generic_update` -/

/-- The rounds of `generic_insert`; `created` is the word of the entry at `kv`. -/
def insertLoop (t : Nat) (key : K) (kv created : Word) : Nat → Bool → Bool → Code K T (Ret K T)
  | 0, _, _ => Prog.halt
  | n + 1, checkDuplicate, expandedFlag => do
    let m ← loadMeta
    -- `find` gets a copy of the snapshot pointer, `find_empty_slot` moves it
    let r ← (if checkDuplicate = true then do
        let f ← find H t ⟨key, false, false⟩ m.1 m.2
        pure (f, m.1, m.2)
      else findEmptySlot H key m.1 m.2)
    let f := r.1
    let m := r.2.2
    if f.result.isFound = true then do
      deleteEntry kv
      pure { found := true, levelIdx := f.levelNum % 256 }
    else if f.result.isVacancy = true ∧ (0 < f.levelNum ∨ m.isResizing = false) then
      match f.e with
      | none => Prog.halt
      | some e => do
        let done ← casSlot (.insertCas e) e f.oldE created (Mem.disown kv)
        if done then
          if m.isResizing = false then do
            let tmp ← loadMeta
            if tmp.2.isResizing = true ∧ f.levelNum = 0 then
              insertLoop t key kv created n false expandedFlag
            else pure { expanded := expandedFlag }
          else pure { expanded := expandedFlag }
        else insertLoop t key kv created n checkDuplicate expandedFlag
    else do
      expand H r.2.1 m
      insertLoop t key kv created n checkDuplicate true

def genericInsert (t : Nat) (key : K) (value : T) (kv : Word) : Code K T (Ret K T) := do
  newEntry t kv (key, value)
  insertLoop H t key kv (setPartial kv (H.par key)) H.retries true false

/-- The slot in front of a bucket, whose first word the redo checks look at; in
front of bucket 0 it is not in the array. -/
def loadNeighbour (level bucket : Nat) : Code K T Word :=
  if bucket = 0 then Prog.read (.slotLoad ⟨level, 0, 0⟩) fun m => m.before level
  else loadSlot ⟨level, bucket - 1, 0⟩

/-- One slot of `erase` in level number `i`: whether an entry was deleted. The
redo checks that follow a deletion all go on with the next slot. -/
def eraseSlot (t : Nat) (key : K) (ptr i : Nat) (q : Slot) : Code K T Bool := do
  let tmp ← loadSlot q
  if partialOf tmp = H.par key ∧ addr tmp ≠ 0 then do
    let kv ← loadEntry (addr tmp)
    if kv.1 = key then do
      let done ← casSlot (.eraseCas q tmp) q tmp 0 (Mem.own t (addr tmp))
      if done then do
        deleteEntry (addr tmp)
        let tmpMeta ← loadMeta
        if tmpMeta.1 ≠ ptr then pure true
        else if i = 0 ∧ ¬ (q.bucket = 0 ∧ tmpMeta.2.isResizing = true) then do
          let _ ← loadNeighbour q.level q.bucket
          pure true
        else pure true
      else pure false
    else pure false
  else pure false

def eraseBucket (t : Nat) (key : K) (ptr i level bucket : Nat) : Nat → Nat → Bool → Code K T Bool
  | 0, _, succDeletion => pure succDeletion
  | n + 1, j, succDeletion => do
    let done ← eraseSlot H t key ptr i ⟨level, bucket, j⟩
    eraseBucket t key ptr i level bucket n (j + 1) (succDeletion || done)

def eraseLevels (t : Nat) (key : K) (ptr : Nat) (m : Meta) : Nat → Nat → Nat → Bool → Code K T Bool
  | 0, _, _, _ => Prog.halt
  | n + 1, li, i, succDeletion => do
    let s ← eraseBucket H t key ptr i li (H.fIdx key li) assocNum 0 succDeletion
    let s ← eraseBucket H t key ptr i li (H.sIdx key li) assocNum 0 s
    let nextLi ← loadUp li
    if li = m.firstLevel then pure s
    else match nextLi with
      | some nextLi => eraseLevels t key ptr m n nextLi (i + 1) s
      | none => Prog.halt

def eraseLoop (t : Nat) (key : K) : Nat → Nat → Meta → Bool → Code K T (Ret K T)
  | 0, _, _, _ => Prog.halt
  | n + 1, ptr, m, succDeletion => do
    let s ← eraseLevels H t key ptr m m.span m.lastLevel 0 succDeletion
    let tmp ← loadMeta
    if tmp.1 = ptr then pure { found := s } else eraseLoop t key n tmp.1 tmp.2 s

def erase (t : Nat) (key : K) : Code K T (Ret K T) := do
  let m ← loadMeta
  eraseLoop H t key H.retries m.1 m.2 false

/-- Whether `generic_update` looks for its item once more after its
compare-exchange. -/
def updateRedo (f : Find) (ptr : Nat) (tmp : Nat × Meta) : Code K T Bool :=
  if tmp.1 ≠ ptr then pure true
  else if f.levelNum = 0 then
    match f.lastBucketEntry with
    | some q => do
      let w ← loadSlot q
      pure (w == BitVec.allOnes 64)
    | none => pure tmp.2.isResizing
  else pure false

def updateLoop (t : Nat) (key : K) (kv created : Word) :
    Nat → Nat → Meta → Bool → Code K T (Ret K T)
  | 0, _, _, _ => Prog.halt
  | n + 1, ptr, m, succUpdate => do
    let f ← find H t ⟨key, true, true⟩ ptr m
    if f.result.isFound = true then
      if succUpdate = true ∧ f.oldE = created then pure { found := true }
      else match f.e with
        | none => Prog.halt
        | some e => do
          let done ← casSlot (.updateCas e f.oldE) e f.oldE created (Mem.disown kv)
          if done then do
            let tmp ← loadMeta
            let redo ← updateRedo f ptr tmp
            if redo then updateLoop t key kv created n tmp.1 tmp.2 true
            else pure { found := true }
          else updateLoop t key kv created n ptr m succUpdate
    else do
      let _ ← (if succUpdate = false then deleteEntry kv else pure ())
      pure { found := succUpdate }

def genericUpdate (t : Nat) (key : K) (value : T) (kv : Word) : Code K T (Ret K T) := do
  newEntry t kv (key, value)
  let m ← loadMeta
  updateLoop H t key kv (setPartial kv (H.par key)) H.retries m.1 m.2 false

/-! ## `resize` -/

/-- The walk along `up` pointers that counts levels. -/
def countLevels (m : Meta) : Nat → Nat → Nat → Code K T Nat
  | 0, _, _ => Prog.halt
  | fuel + 1, li, n =>
    if li = m.firstLevel then pure n
    else do
      let up ← loadUp li
      match up with
      | some up => countLevels m fuel up (n + 1)
      | none => Prog.halt

/-- One destination slot for the word `w` of the rehasher's slot `src`: copy by
compare-exchange if it is empty, then clear `src` by a plain store. -/
def moveTo (w : Word) (src dst : Slot) : Code K T Bool := do
  let dstTmp ← loadSlot dst
  if addr dstTmp = 0 then do
    let done ← casSlot (.copyCas dst) dst dstTmp w fun m => { m with hold := .copied w dst }
    if done then do
      Prog.write (.slotClear src) fun m => { m with
        slots := Function.update m.slots src 0
        cursor := src.slot + 1
        hold := .none }
      pure true
    else pure false
  else pure false

/-- The two candidate buckets of level `tl`, slot by slot in turn. -/
def moveUp (w : Word) (src : Slot) (tl b1 b2 : Nat) : Nat → Nat → Code K T Bool
  | 0, _ => pure false
  | n + 1, j => do
    let done ← moveTo w src ⟨tl, b1, j⟩
    if done then pure true
    else do
      let done ← moveTo w src ⟨tl, b2, j⟩
      if done then pure true else moveUp w src tl b1 b2 n (j + 1)

/-- The slots of bucket `b` of the bottom level `bl`, from slot `j` on, with `n`
to go; `false` where an item found no room. -/
def rehashBucket (bl tl b : Nat) : Nat → Nat → Code K T Bool
  | 0, _ => pure true
  | n + 1, j => do
    let w ← Prog.rmw (.slotLoad ⟨bl, b, j⟩)
      (fun m =>
        if addr (m.slots ⟨bl, b, j⟩) = 0 then { m with cursor := j + 1 }
        else { m with hold := .held (m.slots ⟨bl, b, j⟩) })
      (fun m => m.slots ⟨bl, b, j⟩)
    if addr w = 0 then rehashBucket bl tl b n (j + 1)
    else do
      let kv ← loadEntry (addr w)
      let done ← moveUp w ⟨bl, b, j⟩ tl (H.fIdx kv.1 tl) (H.sIdx kv.1 tl) assocNum 0
      if done then rehashBucket bl tl b n (j + 1) else pure false

/-- The loop that publishes the chain without its bottom level `bl`. -/
def dropLoop (bl : Nat) : Nat → Nat → Meta → Code K T Unit
  | 0, _, _ => Prog.halt
  | n + 1, ptr, m => do
    let levelsLeft ← countLevels m m.span m.lastLevel 0
    let up ← loadUp bl
    match up with
    | none => Prog.halt
    | some up => do
      let done ← casMeta ptr ⟨m.firstLevel, up, levelsLeft != 2⟩
        fun m => { m with expandBucket := 0 }
      if done then pure ()
      else do
        let m ← loadMeta
        dropLoop bl n m.1 m.2

/-- From `RETRY_REHASH` on, for bucket `b`. -/
def rehashLoop (b : Nat) : Nat → Code K T Unit
  | 0 => Prog.halt
  | n + 1 => do
    let m ← Prog.rmw .metaLoad (fun m => { m with cursor := 0, hold := .none })
      (fun m => (m.metaPtr, m.cur))
    let done ← rehashBucket H m.2.lastLevel m.2.firstLevel b assocNum 0
    if done then do
      Prog.write .expandBucket fun m => { m with expandBucket := b + 1, cursor := 0 }
      if b + 1 = H.capacity m.2.lastLevel then dropLoop m.2.lastLevel H.retries m.1 m.2
      else pure ()
    else do
      expand H m.1 m.2
      rehashLoop b n

/-- One round of `while (run_expand_thread)`. -/
def resize : Code K T Unit := do
  let m ← loadMeta
  let nLevels ← countLevels m.2 m.2.span m.2.lastLevel 1
  if nLevels = 2 then pure ()
  else do
    let b ← Prog.read .expandBucket fun m => m.expandBucket
    rehashLoop H b H.retries

end Code

/-! ## The object

Thread 0 is the rehasher; the others call the four operations. Calls and
returns keep `ops` and `calls` up to date. -/

/-- The key an operation may change something about. -/
def Op.target : Op K T → Option K
  | .insert key _ _ | .update key _ _ | .erase key => some key
  | .search _ | .resize => none

def enter [DecidableEq K] (t : Nat) (op : Op K T) (m : Mem K T) : Option (Mem K T) :=
  if (op matches .resize) = (t == 0) ∧ ∀ x ∈ m.ops, x.1 ≠ t then
    some { m with
      ops := (t, op) :: m.ops
      calls := match op.target with
        | some key => Function.update m.calls key (m.calls key ++ [op])
        | none => m.calls }
  else none

def code [DecidableEq K] (H : Table K) (t : Nat) : Op K T → Code K T (Ret K T)
  | .insert key value kv => genericInsert H t key value kv
  | .update key value kv => genericUpdate H t key value kv
  | .erase key => erase H t key
  | .search key => search H key
  | .resize => do
    resize H
    pure {}

def obj [DecidableEq K] (H : Table K) : Obj Site (Mem K T) (Op K T) (Ret K T) where
  code := code H
  enter := enter
  leave t _ _ m := { m with ops := m.ops.filter fun x => x.1 != t }

/-- What the constructor leaves: two linked levels, published, and empty. -/
def start (before : Nat → Word) : Mem K T where
  metaPtr := 0
  metas _ := ⟨1, 0, false⟩
  levels := 2
  slots _ := 0
  before := before
  entries _ := none
  expandBucket := 0
  cursor := 0
  hold := .none
  owner _ := none
  ops := []
  calls _ := []

def Init (m : Mem K T) : Prop := ∃ before, m = start before

end ShmPcc.ClevelHash
