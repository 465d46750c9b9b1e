import Mathlib

/-!
# The values a cell takes

Reading one cell along a trail of memories gives a list with repetitions;
dropping the repetitions (`List.destutter (· ≠ ·)`) gives the values the cell
took, in order. Two facts about such lists: how they grow by one memory, and
when one of them is a subsequence of another list.
-/

namespace ShmPcc

variable {α : Type} [DecidableEq α]

theorem destutter'_snoc (l : List α) : ∀ (a b : α), List.destutter' (· ≠ ·) a (l ++ [b]) =
      if (a :: l).getLast (List.cons_ne_nil a l) = b then List.destutter' (· ≠ ·) a l
      else List.destutter' (· ≠ ·) a l ++ [b] := by
  induction l with
  | nil =>
    intro a b
    by_cases h : a = b <;> simp [List.destutter', h]
  | cons x l ih =>
    intro a b
    rw [List.cons_append, List.getLast_cons_cons]
    by_cases h : a = x
    · rw [List.destutter'_cons_neg _ (not_not.mpr h), List.destutter'_cons_neg _ (not_not.mpr h),
        ih a b]
      subst h
      rfl
    · rw [List.destutter'_cons_pos _ h, List.destutter'_cons_pos _ h, ih x b]
      split <;> rfl

/-- One more reading: a value is added exactly when it changed. -/
theorem destutter_snoc {l : List α} {a : α} (h : l.getLast? = some a) (b : α) :
    (l ++ [b]).destutter (· ≠ ·) =
      if a = b then l.destutter (· ≠ ·) else l.destutter (· ≠ ·) ++ [b] := by
  cases l with
  | nil => cases h
  | cons x l =>
    rw [List.cons_append, List.destutter, List.destutter, destutter'_snoc]
    rw [Option.some.inj h]

theorem sublist_of_idxOf_lt {l xs : List α} (hmem : ∀ x ∈ xs, x ∈ l)
    (h : xs.Pairwise fun a b => l.idxOf a < l.idxOf b) : List.Sublist xs l := by
  have hxs : xs = (xs.attach.map fun x =>
      (⟨l.idxOf x.1, List.idxOf_lt_length_of_mem (hmem x.1 x.2)⟩ : Fin l.length)).map
        (fun i => l[i]) := by
    rw [List.map_map]
    conv_lhs => rw [← List.attach_map_subtype_val xs]
    refine List.map_congr_left fun x _ => ?_
    simp
  rw [hxs]
  refine List.map_getElem_sublist ?_
  rw [List.pairwise_map]
  rw [← List.attach_map_subtype_val xs, List.pairwise_map] at h
  exact h

/-- Readings that never go back in `l` take a subsequence of its values. -/
theorem destutter_sublist {l xs : List α} (hmem : ∀ x ∈ xs, x ∈ l)
    (h : xs.Pairwise fun a b => l.idxOf a ≤ l.idxOf b) :
    List.Sublist (xs.destutter (· ≠ ·)) l := by
  have hsub := List.destutter_sublist (· ≠ ·) xs
  refine sublist_of_idxOf_lt (fun x hx => hmem x (hsub.subset hx)) ?_
  have hchain := List.isChain_destutter (· ≠ ·) xs
  have hpw := (List.Pairwise.sublist hsub h).isChain
  rw [← List.isChain_iff_pairwise]
  have hin : ∀ x ∈ xs.destutter (· ≠ ·), x ∈ l := fun x hx => hmem x (hsub.subset hx)
  generalize xs.destutter (· ≠ ·) = ys at hchain hpw hin
  rw [List.isChain_iff_getElem] at hchain hpw ⊢
  intro i hi
  refine Nat.lt_of_le_of_ne (hpw i hi) fun he => hchain i hi ?_
  exact (List.idxOf_inj (hin _ (List.getElem_mem _))).mp he

end ShmPcc
