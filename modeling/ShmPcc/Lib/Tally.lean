import Mathlib

/-!
# How many places hold a value

`tally f x` is the number of places that hold `x`. It is what a reference count
counts, and it follows the writes to the places one by one. Only finitely many
places hold anything but the null.
-/

namespace ShmPcc

open Function

variable {ι ν : Type} {f : ι → ν} {i : ι} {x y null : ν}

noncomputable def tally (f : ι → ν) (x : ν) : Nat := {i | f i = x}.ncard

/-- All but finitely many places are null. -/
def Sparse (null : ν) (f : ι → ν) : Prop := {i | f i ≠ null}.Finite

theorem Sparse.holders (h : Sparse null f) (hx : x ≠ null) : {i | f i = x}.Finite := by
  refine Set.Finite.subset h fun i hi => ?_
  show f i ≠ null
  rw [show f i = x from hi]
  exact hx

theorem tally_pos (h : Sparse null f) (hx : x ≠ null) (hi : f i = x) : 0 < tally f x :=
  (Set.ncard_pos (h.holders hx)).mpr ⟨i, hi⟩

theorem tally_eq_zero (h : ∀ i, f i ≠ x) : tally f x = 0 := by
  rw [tally, show {i | f i = x} = ∅ from Set.eq_empty_of_forall_notMem h, Set.ncard_empty]

theorem tally_congr {g : ι → ν} (h : ∀ i, g i = x ↔ f i = x) : tally g x = tally f x := by
  refine congrArg Set.ncard (Set.ext fun i => ?_)
  exact h i

/-- Every value has the count of the places that hold it. -/
structure Counts (null : ν) (f : ι → ν) (cnt : ν → Nat) : Prop where
  sparse : Sparse null f
  eq : ∀ x, x ≠ null → cnt x = tally f x

theorem Counts.pos {cnt : ν → Nat} (h : Counts null f cnt) (hx : x ≠ null) (hi : f i = x) :
    0 < cnt x := by
  rw [h.eq x hx]
  exact tally_pos h.sparse hx hi

theorem Counts.empty : Counts null (fun _ : ι => null) (fun _ => 0) :=
  ⟨by simp [Sparse], fun _ hx => (tally_eq_zero fun _ => Ne.symm hx).symm⟩

variable [DecidableEq ι]

theorem Sparse.update (h : Sparse null f) : Sparse null (update f i y) := by
  refine Set.Finite.subset (Set.Finite.insert i h) fun j hj => ?_
  by_cases hji : j = i
  · exact .inl hji
  · rw [Set.mem_ofPred_eq, update_of_ne hji] at hj
    exact .inr hj

theorem tally_update_ne (hold : f i ≠ x) (hnew : y ≠ x) : tally (update f i y) x = tally f x := by
  refine tally_congr fun j => ?_
  rw [update_apply]
  split
  · next hji =>
    rw [hji]
    exact iff_of_false hnew hold
  · rfl

theorem tally_update_add (h : Sparse null f) (hx : x ≠ null) (hold : f i ≠ x) :
    tally (update f i x) x = tally f x + 1 := by
  have hset : {j | update f i x j = x} = insert i {j | f j = x} := by
    ext j
    rw [Set.mem_insert_iff, Set.mem_ofPred_eq, Set.mem_ofPred_eq]
    rw [update_apply]
    split
    · next hji =>
      rw [hji]
      exact iff_of_true rfl (.inl rfl)
    · next hji => exact (or_iff_right hji).symm
  have hnot : i ∉ {j | f j = x} := hold
  rw [tally, hset, Set.ncard_insert_of_notMem hnot (h.holders hx), tally]

theorem tally_update_drop (h : Sparse null f) (hx : x ≠ null) (hold : f i = x) (hnew : y ≠ x) :
    tally (update f i y) x + 1 = tally f x := by
  have hne : update f i y i ≠ x := by
    rw [update_self]
    exact hnew
  have hadd := tally_update_add (h.update) hx hne
  rw [update_idem, ← hold, update_eq_self] at hadd
  rw [← hold]
  exact hadd.symm

namespace Counts

variable [DecidableEq ν] {cnt : ν → Nat}

theorem add (h : Counts null f cnt) (hx : x ≠ null) (hi : f i = null) :
    Counts null (update f i x) (update cnt x (cnt x + 1)) := by
  refine ⟨h.sparse.update, fun z hz => ?_⟩
  by_cases hzx : z = x
  · subst hzx
    rw [update_self, tally_update_add h.sparse hz (hi ▸ Ne.symm hz), h.eq z hz]
  · rw [update_of_ne hzx, tally_update_ne (hi ▸ Ne.symm hz) (Ne.symm hzx)]
    exact h.eq z hz

theorem drop (h : Counts null f cnt) (hx : x ≠ null) (hi : f i = x) :
    Counts null (update f i null) (update cnt x (cnt x - 1)) := by
  refine ⟨h.sparse.update, fun z hz => ?_⟩
  by_cases hzx : z = x
  · subst hzx
    have hdrop := tally_update_drop h.sparse hz hi (Ne.symm hz)
    rw [update_self, h.eq z hz]
    omega
  · rw [update_of_ne hzx, tally_update_ne (hi ▸ Ne.symm hzx) (Ne.symm hz)]
    exact h.eq z hz

theorem unique {j : ι} (h : Counts null f cnt) (hx : x ≠ null) (hone : cnt x ≤ 1) (hi : f i = x)
    (hj : f j = x) : i = j := by
  by_contra hne
  have hpos := (h.drop hx hi).pos hx (update_of_ne (Ne.symm hne) .. |>.trans hj)
  rw [update_self] at hpos
  omega

theorem move {j : ι} (h : Counts null f cnt) (hx : x ≠ null) (hi : f i = x) (hj : f j = null) :
    Counts null (update (update f j x) i null) cnt := by
  have hij : i ≠ j := by
    intro heq
    rw [heq, hj] at hi
    exact hx hi.symm
  have hmove := (h.add hx hj).drop hx (update_of_ne hij .. |>.trans hi)
  rw [update_self, Nat.add_sub_cancel, update_idem, update_eq_self] at hmove
  exact hmove

end Counts

end ShmPcc
