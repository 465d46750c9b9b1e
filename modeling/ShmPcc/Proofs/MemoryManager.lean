import ShmPcc.Ref.MemoryManager

/-!
# The pools of the machines

The constructor of `MemoryManager` replaces the base that the mapper reports by the base of
the mapping wherever the two differ, and for all machines but the first they are meant to
differ. So every machine makes its pool at the base of the mapping, and the shares are what
the mapper reports only where the mapping is at address 0, which the constructor takes for
no mapping.
-/

namespace ShmPcc.MemoryManager

variable {n i j base size : Nat}

/-- The pool of machine `i`, at its share if the mapping is at address 0. -/
def pool (n i base size : Nat) : Extent :=
  ⟨if base = 0 then i * (size / n) else base, size / n⟩

theorem share_le (hi : i < n) : i * (size / n) + size / n ≤ size := by
  calc i * (size / n) + size / n = (i + 1) * (size / n) := (Nat.succ_mul ..).symm
    _ ≤ n * (size / n) := Nat.mul_le_mul_right _ hi
    _ ≤ size := Nat.mul_div_le size n

theorem memoryManager_cxl (hi : i < n) (hsize : size < 2 ^ 64) :
    memoryManager (cxlSystemMemoryMmapper n i) (some base) size = .ok (pool n i base size) := by
  have hlt : i * (size / n) < 2 ^ 64 :=
    ((Nat.le_add_right ..).trans (share_le hi)).trans_lt hsize
  have hpool : (if base ≠ (base + i * (size / n)) % 2 ^ 64 ∧ base ≠ 0 then base
      else (base + i * (size / n)) % 2 ^ 64) = if base = 0 then i * (size / n) else base := by
    by_cases h0 : base = 0
    · rw [if_neg (fun h => h.2 h0), if_pos h0, h0, Nat.zero_add, Nat.mod_eq_of_lt hlt]
    · rw [if_neg h0]
      by_cases heq : base = (base + i * (size / n)) % 2 ^ 64
      · rw [if_neg (fun h => h.1 heq), ← heq]
      · rw [if_pos ⟨heq, h0⟩]
  rw [pool, ← hpool]
  rfl

theorem pool_within (hi : i < n) : (pool n i base size).bytes ⊆ (Extent.mk base size).bytes := by
  have hle : i * (size / n) + size / n ≤ size := share_le hi
  rw [pool]
  split
  · next h0 =>
    subst h0
    exact Extent.bytes_subset (Nat.zero_le _) (by dsimp only; omega)
  · exact Extent.bytes_subset le_rfl (by dsimp only; omega)

theorem pool_disjoint_of_lt (h0 : base = 0) (hij : i < j) :
    Disjoint (pool n i base size).bytes (pool n j base size).bytes := by
  refine Extent.disjoint_of_le ?_
  calc (pool n i base size).base + (pool n i base size).size = (i + 1) * (size / n) := by
        rw [pool, if_pos h0, Nat.succ_mul]
    _ ≤ j * (size / n) := Nat.mul_le_mul_right _ hij
    _ = (pool n j base size).base := by rw [pool, if_pos h0]

/-- With the mapping at any other address than 0 all machines have one pool. -/
theorem pool_eq (h0 : base ≠ 0) : pool n i base size = pool n j base size := by
  rw [pool, pool, if_neg h0, if_neg h0]

/-- The pools of two machines lie in the mapping, and they do not overlap exactly if it is
at address 0. -/
theorem pools_disjoint_iff (n i j base size : Nat) (hn : n ≤ size) (hi : i < n) (hj : j < n)
    (hij : i ≠ j) (hsize : size < 2 ^ 64) : ∃ p q : Extent,
      memoryManager (cxlSystemMemoryMmapper n i) (some base) size = .ok p ∧
      memoryManager (cxlSystemMemoryMmapper n j) (some base) size = .ok q ∧
      (Disjoint p.bytes q.bytes ↔ base = 0) ∧
      p.bytes ⊆ (Extent.mk base size).bytes ∧ q.bytes ⊆ (Extent.mk base size).bytes := by
  refine ⟨pool n i base size, pool n j base size, memoryManager_cxl hi hsize,
    memoryManager_cxl hj hsize, ⟨?_, ?_⟩, pool_within hi, pool_within hj⟩
  · intro hdisjoint
    by_contra h0
    rw [pool_eq h0] at hdisjoint
    exact Extent.not_disjoint_self (Nat.div_pos hn (by omega)) hdisjoint
  · intro h0
    rcases Nat.lt_or_gt_of_ne hij with hlt | hgt
    · exact pool_disjoint_of_lt h0 hlt
    · exact (pool_disjoint_of_lt h0 hgt).symm

theorem pools_disjoint_iff_atZero : ∃ p q : Extent,
    memoryManager (cxlSystemMemoryMmapper 3 1) (some 0) 100 = .ok p ∧
    memoryManager (cxlSystemMemoryMmapper 3 2) (some 0) 100 = .ok q ∧ Disjoint p.bytes q.bytes := by
  obtain ⟨p, q, hp, hq, hdisjoint, -, -⟩ := pools_disjoint_iff 3 1 2 0 100
    (by decide) (by decide) (by decide) (by decide) (by decide)
  exact ⟨p, q, hp, hq, hdisjoint.mpr rfl⟩

/-- Two machines that map 128 KiB at 2^30 both make their pool of the first half. -/
theorem pools_overlap :
    memoryManager (cxlSystemMemoryMmapper 2 0) (some (2 ^ 30)) (2 ^ 17) = .ok ⟨2 ^ 30, 2 ^ 16⟩ ∧
    memoryManager (cxlSystemMemoryMmapper 2 1) (some (2 ^ 30)) (2 ^ 17) = .ok ⟨2 ^ 30, 2 ^ 16⟩ ∧
    ¬ Disjoint (Extent.mk (2 ^ 30) (2 ^ 16)).bytes (Extent.mk (2 ^ 30) (2 ^ 16)).bytes :=
  ⟨by decide +kernel, by decide +kernel, Extent.not_disjoint_self (by decide)⟩

end ShmPcc.MemoryManager
