import ShmPcc.Ref.ClevelHash

/-!
# The bucket indices of `erase` and `generic_update`

The code of `erase`, `find` and `generic_update` once more, for what `ClevelHash` leaves out:
a bucket index is a `difference_type`, which is signed, and the access in front of bucket 0
is an access to bucket -1. The levels are any levels with any capacities, linked in any way,
and what is read from slots and entries is whatever is in the memory. A `level_meta` is not
changed after it was published, so the metas are given with the table.

The label of an access to a slot is its level and its bucket.
-/

namespace ShmPcc.ClevelIndex

open ClevelHash (Word Meta FCode Side addr partialOf setPartial getPartial firstIndex secondIndex
  maxLevel assocNum)

structure Slot where
  level : Nat
  bucket : Int
  slot : Nat
deriving DecidableEq

structure Table (K : Type) where
  hasher : K → Word
  capacity : Nat → Nat
  pow : ∀ level, ∃ k, capacity level = 2 ^ (k + 1)
  metas : Nat → Meta
  /-- The rounds given to each unbounded loop. -/
  retries : Nat

structure Mem (K : Type) where
  metaPtr : Nat
  up : Nat → Option Nat
  slots : Slot → Word
  /-- The keys of the entries. -/
  entries : Word → Option K

inductive Access where
  | slot (level : Nat) (bucket : Int)
  | other
deriving DecidableEq

variable {K : Type}

abbrev Code (K α : Type) := Prog Access (Mem K) α

namespace Table

def par (H : Table K) (key : K) : BitVec 16 := getPartial (H.hasher key)

def fIdx (H : Table K) (key : K) (level : Nat) : Int := firstIndex (H.hasher key) (H.capacity level)

def sIdx (H : Table K) (key : K) (level : Nat) : Int :=
  secondIndex (H.par key) (firstIndex (H.hasher key) (H.capacity level)) (H.capacity level)

end Table

/-! ## Accesses -/

def loadMeta : Code K Nat := Prog.read .other Mem.metaPtr

def loadUp (level : Nat) : Code K (Option Nat) := Prog.read .other fun m => m.up level

def loadSlot (q : Slot) : Code K Word := Prog.read (.slot q.level q.bucket) fun m => m.slots q

def casSlot (q : Slot) (expected desired : Word) : Code K Bool :=
  Prog.rmw (.slot q.level q.bucket)
    (fun m => if m.slots q = expected then { m with slots := Function.update m.slots q desired } else m)
    (fun m => m.slots q == expected)

def loadEntry (a : Word) : Code K K :=
  .step .other id fun m =>
    match m.entries a with
    | some key => .ret key
    | none => .halt

def newEntry (a : Word) (key : K) : Code K Unit :=
  Prog.write .other fun m => { m with entries := Function.update m.entries a (some key) }

def deleteEntry (a : Word) : Code K Unit :=
  Prog.write .other fun m => { m with entries := Function.update m.entries a none }

section Code

variable [DecidableEq K] (H : Table K)

/-! ## `erase` -/

/-- One slot of `erase` in level number `i`. -/
def eraseSlot (key : K) (ptr i : Nat) (q : Slot) : Code K Bool := do
  let tmp ← loadSlot q
  if partialOf tmp = H.par key ∧ addr tmp ≠ 0 then do
    let k ← loadEntry (addr tmp)
    if k = key then do
      let done ← casSlot q tmp 0
      if done then do
        deleteEntry (addr tmp)
        let tmpMeta ← loadMeta
        if tmpMeta ≠ ptr then pure true
        else if i = 0 then
          if q.bucket = 0 ∧ (H.metas tmpMeta).isResizing = true then pure true
          else do
            -- last_bucket_entry, which is only compared
            let _ ← loadSlot ⟨q.level, q.bucket - 1, 0⟩
            pure true
        else pure true
      else pure false
    else pure false
  else pure false

def eraseBucket (key : K) (ptr i level : Nat) (bucket : Int) : Nat → Nat → Bool → Code K Bool
  | 0, _, succDeletion => pure succDeletion
  | n + 1, j, succDeletion => do
    let done ← eraseSlot H key ptr i ⟨level, bucket, j⟩
    eraseBucket key ptr i level bucket n (j + 1) (succDeletion || done)

/-- The levels from `li` on, which is level number `i` of the meta `ptr`. -/
def eraseLevels (key : K) (ptr : Nat) : Nat → Nat → Nat → Bool → Code K Bool
  | 0, _, _, _ => Prog.halt
  | n + 1, li, i, succDeletion => do
    let s ← eraseBucket H key ptr i li (H.fIdx key li) assocNum 0 succDeletion
    let s ← eraseBucket H key ptr i li (H.sIdx key li) assocNum 0 s
    let nextLi ← loadUp li
    if li = (H.metas ptr).firstLevel then pure s
    else match nextLi with
      | some nextLi => eraseLevels key ptr n nextLi (i + 1) s
      | none => Prog.halt

def eraseLoop (key : K) : Nat → Nat → Bool → Code K Bool
  | 0, _, _ => Prog.halt
  | n + 1, ptr, succDeletion => do
    let s ← eraseLevels H key ptr H.retries (H.metas ptr).lastLevel 0 succDeletion
    let tmp ← loadMeta
    if tmp = ptr then pure s else eraseLoop key n tmp s

def erase (key : K) : Code K Bool := do
  let m ← loadMeta
  eraseLoop H key H.retries m false

/-! ## `find`, as `generic_update` calls it -/

/-- The local variables and reference parameters of `find`. -/
structure Find where
  result : FCode := .absentAndNoVacancy
  oldE : Word := 0
  e : Option Slot := none
  lastBucketEntry : Option Slot := none
  levelNum : Nat := 0
  idx : Int := 0
  slotIdx : Nat := 0
  prevE : Word := 0
  prevI : Nat := 0

/-- How a pass goes on after a slot. -/
inductive Visit where
  | next (f : Find) (foundEmptyInB : Bool)
  | retry (f : Find)

def delDup (p1 p2 : Slot) (e1 e2 : Word) : Code K Unit := do
  let w1 ← loadSlot p1
  if e1 ≠ w1 then pure ()
  else do
    let w2 ← loadSlot p2
    if e2 ≠ w2 then pure ()
    else if partialOf e1 = partialOf e2 then
      if e1 = e2 then do
        let _ ← casSlot p2 e2 0
        pure ()
      else do
        let k1 ← loadEntry (addr e1)
        let k2 ← loadEntry (addr e2)
        if k1 = k2 then do
          let done ← casSlot p2 e2 0
          if done then deleteEntry (addr e2) else pure ()
        else pure ()
    else pure ()

/-- Where `last_bucket_entry` points after slot `q` was noted. -/
def Find.noteLast (f : Find) (q : Slot) : Option Slot :=
  if q.bucket ≠ 0 then some ⟨q.level, q.bucket - 1, 0⟩ else f.lastBucketEntry

/-- One slot of a bucket on `side` of level number `i`. -/
def visitSlot (key : K) (levels : List Nat) (side : Side) (i : Nat) (q : Slot) (f : Find)
    (foundEmptyInB : Bool) : Code K Visit := do
  let w ← loadSlot q
  if addr w = 0 then
    if f.result.isFound = false ∧ foundEmptyInB = false then
      -- the less loaded bucket is preferred
      if side = .right ∧ f.result = .vacancyInLeft ∧ f.levelNum = i ∧ f.slotIdx ≤ q.slot then
        pure (.next f true)
      else pure (.next { f with
          result := .vacancy side, oldE := w, e := some q, lastBucketEntry := f.noteLast q,
          levelNum := i, idx := q.bucket, slotIdx := q.slot } true)
    else pure (.next f foundEmptyInB)
  else if partialOf w ≠ H.par key then pure (.next f foundEmptyInB)
  else do
    let k ← loadEntry (addr w)
    if k ≠ key then pure (.next f foundEmptyInB)
    else if f.result.isFound = true then
      match levels[f.levelNum]? with
      | none => Prog.halt
      | some prevLevel =>
        -- `assert(false)`: the same entry twice in one level
        if w = f.prevE ∧ i ≤ f.prevI then Prog.halt
        else do
          delDup q ⟨prevLevel, f.idx, f.slotIdx⟩ w f.prevE
          pure (.retry f)
    else pure (.next { f with
        result := .found side, oldE := w, e := some q, lastBucketEntry := f.noteLast q,
        levelNum := i, idx := q.bucket, slotIdx := q.slot, prevE := w, prevI := i } foundEmptyInB)

def visitBucket (key : K) (levels : List Nat) (side : Side) (i level : Nat) (bucket : Int) :
    Nat → Nat → Find → Bool → Code K Visit
  | 0, _, f, _ => pure (.next f false)
  | n + 1, j, f, foundEmptyInB => do
    let v ← visitSlot H key levels side i ⟨level, bucket, j⟩ f foundEmptyInB
    match v with
    | .next f foundEmptyInB => visitBucket key levels side i level bucket n (j + 1) f foundEmptyInB
    | .retry f => pure (.retry f)

/-- The levels of a pass, bottom to top, from number `i` on. -/
def visitLevels (key : K) (levels : List Nat) : List Nat → Nat → Find → Code K Visit
  | [], _, f => pure (.next f false)
  | cl :: rest, i, f => do
    let v ← visitBucket H key levels .left i cl (H.fIdx key cl) assocNum 0 f false
    match v with
    | .retry f => pure (.retry f)
    | .next f _ => do
      let v ← visitBucket H key levels .right i cl (H.sIdx key cl) assocNum 0 f false
      match v with
      | .retry f => pure (.retry f)
      | .next f _ => visitLevels key levels rest (i + 1) f

/-- The array `levels`, with room for `n` more. -/
def collectLevels (firstLevel : Nat) : Nat → Nat → Code K (List Nat)
  | 0, _ => Prog.halt
  | n + 1, li => do
    let nextLi ← loadUp li
    if li = firstLevel then pure [li]
    else match nextLi with
      | some nextLi => do
        let rest ← collectLevels firstLevel n nextLi
        pure (li :: rest)
      | none => Prog.halt

def findLoop (key : K) : Nat → Nat → Option Slot → Code K Find
  | 0, _, _ => Prog.halt
  | n + 1, ptr, last => do
    let levels ← collectLevels (H.metas ptr).firstLevel maxLevel (H.metas ptr).lastLevel
    let v ← visitLevels H key levels levels 0 { lastBucketEntry := last }
    match v with
    | .retry f => findLoop key n ptr f.lastBucketEntry
    | .next f _ => do
      let tmp ← loadMeta
      if tmp = ptr then pure f else findLoop key n tmp f.lastBucketEntry

/-! ## `generic_update` -/

/-- Whether `generic_update` looks for its item once more after its compare-exchange. -/
def updateRedo (f : Find) (ptr tmp : Nat) : Code K Bool :=
  if tmp ≠ ptr then pure true
  else if f.levelNum = 0 then
    match f.lastBucketEntry with
    | some q => do
      let w ← loadSlot q
      pure (w == BitVec.allOnes 64)
    | none => pure (H.metas tmp).isResizing
  else pure false

def updateLoop (key : K) (kv created : Word) : Nat → Nat → Bool → Code K Bool
  | 0, _, _ => Prog.halt
  | n + 1, ptr, succUpdate => do
    let f ← findLoop H key H.retries ptr none
    if f.result.isFound = true then
      if succUpdate = true ∧ f.oldE = created then pure true
      else match f.e with
        | none => Prog.halt
        | some e => do
          let done ← casSlot e f.oldE created
          if done then do
            let tmp ← loadMeta
            let redo ← updateRedo H f ptr tmp
            if redo then updateLoop key kv created n tmp true else pure true
          else updateLoop key kv created n ptr succUpdate
    else do
      let _ ← (if succUpdate = false then deleteEntry kv else pure ())
      pure succUpdate

def genericUpdate (key : K) (kv : Word) : Code K Bool := do
  newEntry kv key
  let m ← loadMeta
  updateLoop H key kv (setPartial kv (H.par key)) H.retries m false

end Code

/-- The bucket is one of its level. -/
def Access.InBounds (H : Table K) : Access → Prop
  | .slot level bucket => 0 ≤ bucket ∧ bucket < H.capacity level
  | .other => True

end ShmPcc.ClevelIndex
