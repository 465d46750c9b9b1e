import Mathlib

/-!
# Ranges of addresses

An allocator hands out ranges of addresses by their base and their size. Two of them do
not overlap when one ends where the other begins, or before.
-/

namespace ShmPcc

structure Extent where
  base : Nat
  size : Nat
deriving DecidableEq

namespace Extent

variable {a b : Extent}

def bytes (a : Extent) : Set Nat := Set.Ico a.base (a.base + a.size)

theorem disjoint_of_le (h : a.base + a.size ≤ b.base) : Disjoint a.bytes b.bytes := by
  rw [Set.disjoint_left]
  intro x ha hb
  exact absurd (ha.2.trans_le h) (not_lt.mpr hb.1)

theorem bytes_subset (hbase : b.base ≤ a.base) (hend : a.base + a.size ≤ b.base + b.size) :
    a.bytes ⊆ b.bytes :=
  Set.Ico_subset_Ico hbase hend

theorem not_disjoint_self (h : 0 < a.size) : ¬ Disjoint a.bytes a.bytes := by
  rw [Set.not_disjoint_iff]
  exact ⟨a.base, ⟨le_rfl, by omega⟩, ⟨le_rfl, by omega⟩⟩

end Extent

end ShmPcc
