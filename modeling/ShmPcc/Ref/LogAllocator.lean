import ShmPcc.Lib.History
import ShmPcc.Lib.Extent

/-!
# LockFreeLogAllocator of lsmalloc

A segment of shared memory begins with the metadata, then the table of object entries, then
the log. An object has an id, taken from a counter in the metadata; each write of it takes
a new range of the log, by a `fetch_add` on the offset, and links it to the id. The typed
functions link by the CLHT index, the deprecated ones by the address in the entry.

Each access of an atomic field is one step, and so are the copying of the data and a call
of the index. The index is what its callers see of it: `Insert` refuses key 0 and leaves a
key alone that is there, `Read` refuses key 0 and gives 0 for a key that is not there. For
a type `T` the model has the sizes that the code takes of it, `sizeof(T)` and
`sizeof(Segment<T>)`, and `D` for its values. `data` says what can be read back: the
segment that was copied to an address, until something is copied over a part of it.
-/

namespace ShmPcc.LogAllocator

/-- `SharedAllocatorMeta` -/
structure Meta where
  nextId : Nat
  offset : Nat
  base : Nat
  maxObjects : Nat
  logSegmentSize : Nat
deriving DecidableEq

/-- `ObjectEntry`, but for the fields no function reads. -/
structure Entry where
  addr : Nat
  refCount : Int
  size : Nat
deriving DecidableEq

structure Mem (D : Type) where
  «meta» : Meta
  entries : Nat → Entry
  index : Nat → Option Nat
  data : Nat → Option (Nat × D)

def sizeofMeta : Nat := 40

def sizeofEntry : Nat := 40

/-- The range of `size_t`. -/
def sizeT : Nat := 2 ^ 64

def subSizeT (a b : Nat) : Nat := (a + (sizeT - b % sizeT)) % sizeT

/-- `uint32_t` or a larger number as an `int`. -/
def asInt (x : Int) : Int := x.bmod (2 ^ 32)

def Meta.headerSize (g : Meta) : Nat := sizeofMeta + sizeofEntry * g.maxObjects

def Meta.getSegmentBeginOffset (g : Meta) : Nat := g.base + g.headerSize

inductive Op (D : Type) where
  | allocateT (sizeofT : Nat)
  | freeT (id : Nat)
  | acquireT (id : Nat)
  | releaseT (id : Nat)
  -- what the uninitialised `addr` holds
  | readT (id uninit : Nat)
  | writeT (id sizeofSegment : Nat) (data : D)
  -- the deprecated ones
  | allocate (size : Nat)
  | acquire (id : Nat)
  | release (id : Nat)
  | read (id : Nat)
  | write (id size : Nat)
deriving DecidableEq

inductive Ret (D : Type) where
  | unit
  | id (id : Nat)
  | pointer (addr : Nat)
  | nullptr
  /-- What is found at the pointer. -/
  | segment (data : Option D)
  /-- "Out of memory in segment (CoW)" -/
  | outOfMemory
deriving DecidableEq

inductive Pc (D : Type) where
  | idle (ret : Ret D)
  -- a failed assertion
  | aborted
  -- both allocates
  | takeId (size : Nat)
  | setRef (id size : Nat)
  | setSize (id size : Nat)
  | clearAddr (id : Nat) (ret : Ret D)
  -- free<T>
  | clearRef (id : Nat)
  -- ref_count.fetch_add(1) and ref_count.fetch_sub(1) before a return
  | addRef (id : Nat)
  | subRef (id : Nat) (ret : Ret D)
  -- read<T>
  | find (id uninit : Nat)
  -- write<T>
  | bumpT (id size : Nat) (data : D)
  | copyT (id newPtr size : Nat) (data : D)
  | insert (id newPtr : Nat)
  -- acquire
  | loadRef (id : Nat)
  | loadNextId (id : Nat) (currentRefCount : Int)
  | claimRef (id : Nat) (currentRefCount : Int)
  | storeNextId (id : Nat)
  -- read
  | readAdd (id : Nat)
  | readAddr (id : Nat)
  -- write
  | writeRef (id size : Nat)
  | writeAddr (id size : Nat) (refCount : Int)
  | bump (id size : Nat) (refCount : Int) (oldAddr : Nat)
  | copy (id newPtr size : Nat) (refCount : Int) (oldAddr : Nat)
  | exchange (id newPtr size : Nat) (refCount : Int) (oldAddr : Nat)
  | testSize (id size : Nat) (refCount : Int) (oldAddr : Nat)
  | storeSize (id size : Nat) (refCount : Int) (oldAddr : Nat)
deriving DecidableEq

namespace Mem

variable {D : Type}

def setEntry (m : Mem D) (id : Nat) (f : Entry → Entry) : Mem D :=
  { m with entries := Function.update m.entries id (f (m.entries id)) }

def fetchAddRef (m : Mem D) (id : Nat) (i : Int) : Mem D :=
  m.setEntry id fun e => { e with refCount := asInt (e.refCount + i) }

/-- `std::memcpy` of a segment, or of bytes that are none. -/
def copy (m : Mem D) (addr size : Nat) (x : Option D) : Mem D :=
  { m with data := fun a =>
      if a = addr then x.map fun d => (size, d)
      else (m.data a).filter fun y => addr + size ≤ a ∨ a + y.1 ≤ addr }

/-- `CLHTDB::Insert` -/
def indexInsert (m : Mem D) (key value : Nat) : Mem D :=
  if key = 0 then m
  else match m.index key with
    | some _ => m
    | none => { m with index := Function.update m.index key (some value) }

/-- `CLHTDB::Read` into a variable that holds `value`. -/
def indexRead (m : Mem D) (key value : Nat) : Nat :=
  if key = 0 then value else (m.index key).getD 0

end Mem

section

variable {D : Type}

def call (_ : Nat) (op : Op D) (pc : Pc D) (m : Mem D) : Option (Pc D × Mem D) :=
  match pc, op with
  | .idle _, .allocateT sizeofT => some (.takeId sizeofT, m)
  | .idle _, .allocate size => some (.takeId size, m)
  | .idle _, .freeT id => some (.clearRef id, m)
  | .idle _, .acquireT id => some (.addRef id, m)
  | .idle _, .releaseT id => some (.subRef id .unit, m)
  | .idle _, .release id => some (.subRef id .unit, m)
  | .idle _, .readT id uninit => some (.find id uninit, m)
  | .idle _, .writeT id size data => some (.bumpT id size data, m)
  | .idle _, .acquire id => some (.loadRef id, m)
  | .idle _, .read id => some (.readAdd id, m)
  | .idle _, .write id size => some (.writeRef id size, m)
  | _, _ => none

/-- `meta->offset.fetch_add(size)`, and whether the bound check passes. -/
def Meta.fetchAddOffset (g : Meta) (size : Nat) : Meta × Bool :=
  ({ g with offset := (g.offset + size) % sizeT }, (g.offset + size) % sizeT ≤ g.logSegmentSize)

/-- Where `write<T>` puts the range that begins at `offset` in the log. -/
def Meta.newPtrT (g : Meta) : Nat := (g.getSegmentBeginOffset + g.offset) % sizeT

/-- Where the deprecated `write` puts it. -/
def Meta.newPtr (g : Meta) : Nat := (g.base + g.offset) % sizeT

/-- The deprecated `write` after the address is exchanged and the size is set. -/
def dropOld (id : Nat) (refCount : Int) (oldAddr : Nat) : Pc D :=
  if refCount > 1 ∧ oldAddr ≠ 0 then .subRef id .unit else .idle .unit

def run (_ : Nat) : Pc D → Mem D → Option (Pc D × Mem D)
  | .idle _, _ | .aborted, _ => none
  | .takeId size, m =>
    let id := m.meta.nextId
    some (if id < m.meta.maxObjects then .setRef id size else .aborted,
      { m with «meta».nextId := (id + 1) % 2 ^ 32 })
  | .setRef id size, m => some (.setSize id size, m.setEntry id fun e => { e with refCount := 1 })
  | .setSize id size, m => some (.clearAddr id (.id id), m.setEntry id fun e => { e with size := size })
  | .clearAddr id ret, m => some (.idle ret, m.setEntry id fun e => { e with addr := 0 })
  | .clearRef id, m => some (.clearAddr id .unit, m.setEntry id fun e => { e with refCount := 0 })
  | .addRef id, m => some (.idle .unit, m.fetchAddRef id 1)
  | .subRef id ret, m => some (.idle ret, m.fetchAddRef id (-1))
  | .find id uninit, m =>
    let addr := m.indexRead id uninit
    some (.idle (if addr = 0 then .nullptr else .segment ((m.data addr).map Prod.snd)), m)
  | .bumpT id size data, m =>
    let (g, fits) := m.meta.fetchAddOffset size
    some (if fits then .copyT id m.meta.newPtrT size data else .idle .outOfMemory, { m with «meta» := g })
  | .copyT id newPtr size data, m => some (.insert id newPtr, m.copy newPtr size (some data))
  | .insert id newPtr, m => some (.idle .unit, m.indexInsert id newPtr)
  | .loadRef id, m => some (.loadNextId id (m.entries id).refCount, m)
  | .loadNextId id currentRefCount, m =>
    some (if currentRefCount = 0 ∧ asInt m.meta.nextId ≥ asInt id then .claimRef id currentRefCount
      else .addRef id, m)
  | .claimRef id currentRefCount, m =>
    if (m.entries id).refCount = currentRefCount then
      some (.storeNextId id, m.setEntry id fun e => { e with refCount := 1 })
    else some (.addRef id, m)
  | .storeNextId id, m => some (.idle .unit, { m with «meta».nextId := (id + 1) % 2 ^ 32 })
  | .readAdd id, m => some (.readAddr id, m.fetchAddRef id 1)
  | .readAddr id, m => some (.subRef id (.pointer (m.entries id).addr), m)
  | .writeRef id size, m => some (.writeAddr id size (m.entries id).refCount, m)
  | .writeAddr id size refCount, m => some (.bump id size refCount (m.entries id).addr, m)
  | .bump id size refCount oldAddr, m =>
    let (g, fits) := m.meta.fetchAddOffset size
    some (if fits then .copy id m.meta.newPtr size refCount oldAddr else .idle .outOfMemory,
      { m with «meta» := g })
  | .copy id newPtr size refCount oldAddr, m =>
    some (.exchange id newPtr size refCount oldAddr, m.copy newPtr size none)
  | .exchange id newPtr size refCount oldAddr, m =>
    some (.testSize id size refCount oldAddr, m.setEntry id fun e => { e with addr := newPtr })
  | .testSize id size refCount oldAddr, m =>
    some (if (m.entries id).size = 0 then .storeSize id size refCount oldAddr
      else dropOld id refCount oldAddr, m)
  | .storeSize id size refCount oldAddr, m =>
    some (dropOld id refCount oldAddr, m.setEntry id fun e => { e with size := size })

def machine : Machine (Mem D) (Pc D) (Op D) := ⟨call, run⟩

/-- What `init_allocator` makes of a mapping of `dataSize` bytes at `base`. -/
def initAllocator (base dataSize maxObjects : Nat) : Mem D where
  «meta» := ⟨0, 0, base, maxObjects,
    subSizeT (subSizeT dataSize sizeofMeta) (sizeofEntry * maxObjects)⟩
  entries _ := ⟨0, 0, 0⟩
  index _ := none
  data _ := none

/-- The metadata, the entries and the log lie in the mapping, and the mapping in the
address space. -/
structure Mapped (base dataSize maxObjects : Nat) : Prop where
  header : sizeofMeta + sizeofEntry * maxObjects ≤ dataSize
  size : dataSize < sizeT
  mapping : base + dataSize ≤ sizeT

/-- Metadata and entries of a mapping at `base`. -/
def headerArea (base maxObjects : Nat) : Extent := ⟨base, sizeofMeta + sizeofEntry * maxObjects⟩

/-- The log, to the end of the mapping. -/
def logSegment (base dataSize maxObjects : Nat) : Extent :=
  ⟨base + (sizeofMeta + sizeofEntry * maxObjects), dataSize - (sizeofMeta + sizeofEntry * maxObjects)⟩

/-! ## What has been given out -/

/-- The range of a write that is about to take it. -/
def Pc.reserves (g : Meta) : Pc D → Option Extent
  | .bumpT _ size _ => some ⟨g.newPtrT, size⟩
  | .bump _ size _ _ => some ⟨g.newPtr, size⟩
  | _ => none

/-- The ranges given to writes, where the bound check passes. -/
def logExtents (_ : Nat) (pc : Pc D) (m : Mem D) (_ : Pc D) (extents : List Extent) : List Extent :=
  match pc.reserves m.meta with
  | some e => if (m.meta.fetchAddOffset e.size).2 then extents ++ [e] else extents
  | none => extents

/-- The ids that the allocates take. -/
def logIds (_ : Nat) (pc : Pc D) (m : Mem D) (_ : Pc D) (ids : List Nat) : List Nat :=
  match pc with
  | .takeId _ => ids ++ [m.meta.nextId]
  | _ => ids

/-! ## Calls one after the other -/

/-- The rest of a call, run alone. -/
def finish : Nat → Pc D → Mem D → Option (Ret D × Mem D)
  | _, .idle ret, m => some (ret, m)
  | 0, _, _ => none
  | n + 1, pc, m => (run 0 pc m).bind fun x => finish n x.1 x.2

/-- A call run alone; none takes more steps than the deprecated `write`. -/
def exec (op : Op D) (m : Mem D) : Option (Ret D × Mem D) :=
  (call 0 op (.idle .unit) m).bind fun x => finish 8 x.1 x.2

/-- A write of this call fits in the log. -/
def Op.fits (g : Meta) : Op D → Bool
  | .writeT _ size _ | .write _ size => g.offset + size ≤ g.logSegmentSize
  | _ => true

/-- Calls one after the other, as long as all writes fit. -/
def execAll : List (Op D) → Mem D → Option (Mem D)
  | [], m => some m
  | op :: ops, m => if op.fits m.meta then (exec op m).bind fun x => execAll ops x.2 else none

/-- A call of `allocate<T>`, `read<T>` or `write<T>`, for a `T` with segments of `size`. -/
def Op.isTyped (size : Nat) : Op D → Bool
  | .allocateT _ | .readT .. => true
  | .writeT _ size' _ => size' = size
  | _ => false

/-- What the typed writes among the calls write to `id`. -/
def writes (id : Nat) (ops : List (Op D)) : List D :=
  ops.filterMap fun
    | .writeT id' _ data => if id' = id then some data else none
    | _ => none

end

end ShmPcc.LogAllocator
