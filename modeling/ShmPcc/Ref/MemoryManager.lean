import ShmPcc.Lib.Extent

/-!
# The mappers and the MemoryManager of mm.cc

`MemoryManager` has its mapper map the device and makes a memkind pool of what the mapper
reports as the range for the pool. For `SystemMemoryMmapper` that is the whole mapping;
`CXLSystemMemoryMmapper` reports the share of its machine, `size / num_machines` bytes at
`machine_no` times that from the base of the mapping.

What `mmap` returns is a parameter, `none` for `MAP_FAILED`; it need not be the requested
base, which is not used for anything else. Pointers and sizes are words of 64 bits. The
pool itself is made by memkind, from the range given here.
-/

namespace ShmPcc.MemoryManager

inductive Error where
  /-- "Memory already allocated." -/
  | alreadyAllocated
  /-- "Failed to mmap." -/
  | failedToMmap
deriving DecidableEq

/-- The fields of `CXLSystemMemoryMmapper`. -/
structure Share where
  numMachines : Nat
  machineNo : Nat
  perMachineBase : Nat
  perMachineSize : Nat
deriving DecidableEq

/-- `SystemMemoryMmapper`, and with a share `CXLSystemMemoryMmapper`. -/
structure Mmapper where
  mmapBase : Nat
  mmapSize : Nat
  share : Option Share
deriving DecidableEq

def systemMemoryMmapper : Mmapper := ⟨0, 0, none⟩

def cxlSystemMemoryMmapper (numMachines machineNo : Nat) : Mmapper :=
  ⟨0, 0, some ⟨numMachines, machineNo, 0, 0⟩⟩

namespace Mmapper

/-- `allocate`, where `mmap` returns `mapped`. -/
def allocate (a : Mmapper) (mapped : Option Nat) (size : Nat) : Except Error Mmapper :=
  match a.share with
  | none =>
    if a.mmapBase ≠ 0 then .error .alreadyAllocated
    else match mapped with
      | none => .error .failedToMmap
      | some base => .ok { a with mmapBase := base, mmapSize := size }
  | some c =>
    match mapped with
    | none => .error .failedToMmap
    | some base =>
      let perMachineSize := size / c.numMachines
      let perMachineBase := (base + c.machineNo * perMachineSize) % 2 ^ 64
      .ok ⟨base, size, some { c with perMachineBase, perMachineSize }⟩

def getMmapBase (a : Mmapper) : Nat := a.mmapBase

def getMempoolBase (a : Mmapper) : Nat :=
  match a.share with
  | none => a.mmapBase
  | some c => c.perMachineBase

def getMempoolSize (a : Mmapper) : Nat :=
  match a.share with
  | none => a.mmapSize
  | some c => c.perMachineSize

end Mmapper

/-- The constructor with a mapper, as the range of the pool it makes. -/
def memoryManager (allocator : Mmapper) (mapped : Option Nat) (s : Nat) : Except Error Extent := do
  let allocator ← allocator.allocate mapped s
  let base := allocator.getMempoolBase
  let size := allocator.getMempoolSize
  let actualBase := allocator.getMmapBase
  let base := if actualBase ≠ base ∧ actualBase ≠ 0 then actualBase else base
  return ⟨base, size⟩

end ShmPcc.MemoryManager
