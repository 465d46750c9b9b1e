import ShmPcc.Ref.ClevelHash

/-!
# `clevel_hash` with `OPT_CLEVEL_ROOT_READ`

The second build of `ClevelHash/clevel_hash.hpp`. A `level_meta` has an array of its levels
as well, so that readers need not follow `up` pointers, and is published through a
`HelpUpdate`, which is an atomic pointer here. What the build shares with the plain one runs
on the table as it is there.

The array is filled by the constructor of `level_meta` that takes the levels. The default
constructor leaves it empty, and the constructor of the table sets `first_level` and
`last_level` of such a meta itself.

`generic_update` compares a local variable with the published meta that this build never
assigns; what it holds each time it is read is the environment's.
-/

namespace ShmPcc.ClevelOpt

open ClevelHash

variable {K T α : Type}

structure Mem (K T : Type) where
  table : ClevelHash.Mem K T
  /-- The array `levels` of a published meta, up to `level_count`. -/
  levels : Nat → List Nat
  /-- What the variable that is not assigned holds, each time it is read. -/
  junk : Nat → Nat
  junkReads : Nat

abbrev Code (K T α : Type) := Prog Site (Mem K T) α

def Mem.setTable (m : ClevelHash.Mem K T) (c : Mem K T) : Mem K T := { c with table := m }

/-- What the two builds have in common. -/
def onTable (p : ClevelHash.Code K T α) : Code K T α := p.zoom Mem.table Mem.setTable

/-! ## Metas -/

/-- A pointer to a published meta, with what it points to. -/
structure Snap where
  ptr : Nat
  info : Meta
  levels : List Nat

def Mem.snap (c : Mem K T) (ptr : Nat) : Snap := ⟨ptr, c.table.metas ptr, c.levels ptr⟩

/-- `help_update->load_ptr` -/
def loadPtr : Code K T Snap := Prog.read .metaLoad fun c => c.snap c.table.metaPtr

/-- `help_update->cas_ptr` -/
def casPtr (expected : Nat) (desired : Meta) (levels : List Nat)
    (note : ClevelHash.Mem K T → ClevelHash.Mem K T) : Code K T Bool :=
  Prog.rmw .metaCas
    (fun c =>
      if c.table.metaPtr = expected then
        { c with
          table := note { c.table with
            metaPtr := c.table.metaPtr + 1
            metas := Function.update c.table.metas (c.table.metaPtr + 1) desired }
          levels := Function.update c.levels (c.table.metaPtr + 1) levels }
      else c)
    (fun c => c.table.metaPtr == expected)

/-- The meta behind a pointer; there is none where nothing was published. -/
def deref (ptr : Nat) : Code K T Snap :=
  .step .metaLoad id fun c => if ptr ≤ c.table.metaPtr then .ret (c.snap ptr) else .halt

def readJunk : Code K T Nat :=
  Prog.rmw .metaLoad (fun c => { c with junkReads := c.junkReads + 1 })
    (fun c => c.junk c.junkReads)

/-- `set_levels`, from level `l` on, with room for `n` levels below the first one. -/
def setLevels (firstLevel : Nat) : Nat → Nat → Code K T (List Nat)
  | 0, _ => pure [firstLevel]
  | n + 1, l =>
    if l = firstLevel then pure [firstLevel]
    else do
      let next ← onTable (loadUp l)
      match next with
      -- the place of `l` is given to the first level
      | none => pure [firstLevel]
      | some next => do
        let rest ← setLevels firstLevel n next
        pure (l :: rest)

/-- The array that `level_meta(firstLevel, lastLevel, ..)` has. -/
def newLevels (firstLevel lastLevel : Nat) : Code K T (List Nat) :=
  setLevels firstLevel (maxLevel - 1) lastLevel

section Code

variable [DecidableEq K] (H : Table K)

/-! ## `search` -/

/-- The levels of the array from number `i` on. An array that is empty has null for its first
level. -/
def searchLevels (key : K) (m : Meta) : List Nat → Nat → Code K T (Option (Ret K T))
  | [], _ => Prog.halt
  | li :: rest, i => do
    let f ← onTable (searchBucket H key li (H.fIdx key li) assocNum 0)
    match f with
    | some (j, kv) => pure (some
        { found := true, levelIdx := i % 256, bucketIdx := H.fIdx key li, slotIdx := j,
          value := some kv })
    | none => do
      let s ← onTable (searchBucket H key li (H.sIdx key li) assocNum 0)
      match s with
      | some (j, kv) => pure (some
          { found := true, levelIdx := i % 256, bucketIdx := H.sIdx key li, slotIdx := j,
            value := some kv })
      | none =>
        if rest = [] ∨ li = m.firstLevel then pure none
        else searchLevels key m rest (i + 1)

def searchLoop (key : K) : Nat → Snap → Code K T (Ret K T)
  | 0, _ => Prog.halt
  | n + 1, m => do
    let r ← searchLevels H key m.info m.levels 0
    match r with
    | some r => pure r
    | none => do
      let tmp ← loadPtr
      if tmp.ptr = m.ptr then pure {} else searchLoop key n tmp

def search (key : K) : Code K T (Ret K T) := do
  let m ← loadPtr
  searchLoop H key H.retries m

/-! ## `find` and `find_empty_slot` -/

def findLoop (t : Nat) (query : Query K) : Nat → Snap → Option Slot → Code K T Find
  | 0, _, _ => Prog.halt
  | n + 1, m, last => do
    let v ← onTable (visitLevels H t query m.levels m.levels 0 { lastBucketEntry := last })
    match v with
    | .done f => pure f
    | .retry f => findLoop t query n m f.lastBucketEntry
    | .next f _ => do
      let tmp ← loadPtr
      if tmp.ptr = m.ptr then pure f else findLoop t query n tmp f.lastBucketEntry

def find (t : Nat) (query : Query K) (m : Snap) : Code K T Find :=
  findLoop H t query H.retries m none

def findEmptySlotLoop (key : K) : Nat → Snap → Code K T (Find × Snap)
  | 0, _ => Prog.halt
  | n + 1, m => do
    let f ← onTable (emptyInLevels H key m.levels.reverse)
    let tmp ← loadPtr
    if tmp.ptr = m.ptr then pure (f, m) else findEmptySlotLoop key n tmp

def findEmptySlot (key : K) (m : Snap) : Code K T (Find × Snap) :=
  findEmptySlotLoop H key H.retries m

/-! ## `expand` -/

def publishLoop (newCapacity : Nat) : Nat → Snap → Code K T Unit
  | 0, _ => Prog.halt
  | n + 1, m => do
    let up ← (if newCapacity ≤ H.capacity m.info.firstLevel then pure (some m.info.firstLevel)
      else onTable (loadUp m.info.firstLevel))
    match up with
    | none => Prog.halt
    | some firstLevel => do
      let levels ← newLevels firstLevel m.info.lastLevel
      let done ← casPtr m.ptr ⟨firstLevel, m.info.lastLevel, true⟩ levels id
      if done then pure ()
      else do
        let m ← loadPtr
        if newCapacity ≤ H.capacity m.info.firstLevel ∧ m.info.isResizing = true then pure ()
        else publishLoop newCapacity n m

def expand (m : Snap) : Code K T Unit := do
  let up ← onTable (loadUp m.info.firstLevel)
  match up with
  | none => do
    let _ ← onTable (casUp m.info.firstLevel)
    publishLoop H (H.capacity m.info.firstLevel * 2) H.retries m
  | some _ => do
    let tmp ← loadPtr
    if tmp.ptr = m.ptr then publishLoop H (H.capacity m.info.firstLevel) H.retries m
    else pure ()

/-! ## `generic_insert`, `erase` and `generic_update` -/

def insertLoop (t : Nat) (key : K) (kv created : Word) : Nat → Bool → Bool → Code K T (Ret K T)
  | 0, _, _ => Prog.halt
  | n + 1, checkDuplicate, expandedFlag => do
    let m ← loadPtr
    let r ← (if checkDuplicate = true then do
        let f ← find H t ⟨key, false, false⟩ m
        pure (f, m)
      else findEmptySlot H key m)
    let f := r.1
    let m := r.2
    if f.result.isFound = true then do
      onTable (deleteEntry kv)
      pure { found := true, levelIdx := f.levelNum % 256 }
    else if f.result.isVacancy = true ∧ (0 < f.levelNum ∨ m.info.isResizing = false) then
      match f.e with
      | none => Prog.halt
      | some e => do
        let done ← onTable (casSlot (.insertCas e) e f.oldE created (Mem.disown kv))
        if done then
          if m.info.isResizing = false then do
            let tmp ← loadPtr
            if tmp.info.isResizing = true ∧ f.levelNum = 0 then
              insertLoop t key kv created n false expandedFlag
            else pure { expanded := expandedFlag }
          else pure { expanded := expandedFlag }
        else insertLoop t key kv created n checkDuplicate expandedFlag
    else do
      expand H m
      insertLoop t key kv created n checkDuplicate true

def genericInsert (t : Nat) (key : K) (value : T) (kv : Word) : Code K T (Ret K T) := do
  onTable (newEntry t kv (key, value))
  insertLoop H t key kv (setPartial kv (H.par key)) H.retries true false

/-- `erase` follows the `up` pointers in this build as well. -/
def erase (t : Nat) (key : K) : Code K T (Ret K T) := onTable (ClevelHash.erase H t key)

/-- After the compare-exchange it is `m_copy` that is loaded again, and `tmp_meta` that is
compared with it and followed. -/
def updateLoop (t : Nat) (key : K) (kv created : Word) : Nat → Snap → Bool → Code K T (Ret K T)
  | 0, _, _ => Prog.halt
  | n + 1, m, succUpdate => do
    let f ← find H t ⟨key, true, true⟩ m
    if f.result.isFound = true then
      if succUpdate = true ∧ f.oldE = created then pure { found := true }
      else match f.e with
        | none => Prog.halt
        | some e => do
          let done ← onTable (casSlot (.updateCas e f.oldE) e f.oldE created (Mem.disown kv))
          if done then do
            let m ← loadPtr
            let tmp ← readJunk
            let redo ← (if tmp ≠ m.ptr then pure true
              else onTable (updateRedo f m.ptr (m.ptr, m.info)))
            if redo then do
              let m ← deref tmp
              updateLoop t key kv created n m true
            else pure { found := true }
          else updateLoop t key kv created n m succUpdate
    else do
      let _ ← (if succUpdate = false then onTable (deleteEntry kv) else pure ())
      pure { found := succUpdate }

def genericUpdate (t : Nat) (key : K) (value : T) (kv : Word) : Code K T (Ret K T) := do
  onTable (newEntry t kv (key, value))
  let m ← loadPtr
  updateLoop H t key kv (setPartial kv (H.par key)) H.retries m false

/-! ## `resize` -/

def dropLoop (bl : Nat) : Nat → Snap → Code K T Unit
  | 0, _ => Prog.halt
  | n + 1, m => do
    let levelsLeft ← onTable (countLevels m.info m.info.span m.info.lastLevel 0)
    let up ← onTable (loadUp bl)
    match up with
    | none => Prog.halt
    | some up => do
      let levels ← newLevels m.info.firstLevel up
      let done ← casPtr m.ptr ⟨m.info.firstLevel, up, levelsLeft != 2⟩ levels
        fun m => { m with expandBucket := 0 }
      if done then pure ()
      else do
        let m ← loadPtr
        dropLoop bl n m

def rehashLoop (b : Nat) : Nat → Code K T Unit
  | 0 => Prog.halt
  | n + 1 => do
    let m ← Prog.rmw .metaLoad
      (fun c => { c with table := { c.table with cursor := 0, hold := .none } })
      (fun c => c.snap c.table.metaPtr)
    let done ← onTable (rehashBucket H m.info.lastLevel m.info.firstLevel b assocNum 0)
    if done then do
      onTable (Prog.write .expandBucket fun m => { m with expandBucket := b + 1, cursor := 0 })
      if b + 1 = H.capacity m.info.lastLevel then dropLoop m.info.lastLevel H.retries m
      else pure ()
    else do
      expand H m
      rehashLoop b n

def resize : Code K T Unit := do
  let m ← loadPtr
  let nLevels ← onTable (countLevels m.info m.info.span m.info.lastLevel 1)
  if nLevels = 2 then pure ()
  else do
    let b ← onTable (Prog.read .expandBucket fun m => m.expandBucket)
    rehashLoop H b H.retries

end Code

/-! ## The object -/

def code [DecidableEq K] (H : Table K) (t : Nat) : Op K T → Code K T (Ret K T)
  | .insert key value kv => genericInsert H t key value kv
  | .update key value kv => genericUpdate H t key value kv
  | .erase key => erase H t key
  | .search key => search H key
  | .resize => do
    resize H
    pure {}

def obj [DecidableEq K] (H : Table K) : Obj Site (Mem K T) (Op K T) (Ret K T) where
  code := code H
  enter t op c := (ClevelHash.enter t op c.table).map fun m => { c with table := m }
  leave t op r c := { c with table := (ClevelHash.obj H).leave t op r c.table }

/-- What the constructor leaves: its meta comes from the default constructor, with no level in
the array. -/
def start (before : Nat → Word) (junk : Nat → Nat) : Mem K T where
  table := ClevelHash.start before
  levels _ := []
  junk := junk
  junkReads := 0

end ShmPcc.ClevelOpt
