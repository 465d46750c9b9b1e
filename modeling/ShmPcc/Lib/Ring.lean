import Mathlib

/-!
# The content of a ring

A ring of `n` places is a function on offsets that is only ever read below
`n`. What lies in it from position `p` on is a list, read around the end:
element `i` stands at `(p + i) % n`. A message copied in one piece, or in two
because it meets the end, is the same list either way, and so is one read back.
-/

namespace ShmPcc

/-- The ring holds `l` from position `p` on. -/
def RingHolds {β : Type} (n : Nat) (f : Nat → β) (p : Nat) (l : List β) : Prop :=
  ∀ i x, l[i]? = some x → f ((p + i) % n) = x

/-- `size` elements of a source from `s` on, written over the places from `p`
on; the places do not run over the end. -/
def overwrite {β : Type} (f : Nat → β) (p : Nat) (src : Nat → β) (s size : Nat) : Nat → β :=
  fun i => if p ≤ i ∧ i < p + size then src (s + (i - p)) else f i

/-- `size` elements from position `p` on, without going around the end. -/
def slice {β : Type} (f : Nat → β) (p size : Nat) : List β :=
  (List.range size).map fun i => f (p + i)

theorem slice_add {β : Type} {f : Nat → β} {p a b : Nat} :
    slice f p (a + b) = slice f p a ++ slice f (p + a) b := by
  simp only [slice, List.range_add, List.map_append, List.map_map]
  exact congrArg _ (List.map_congr_left fun i _ => congrArg f (Nat.add_assoc ..).symm)

namespace RingHolds

variable {β : Type} {n p q : Nat} {f g : Nat → β} {l l' : List β}

theorem nil : RingHolds n f p [] := by
  intro i x h
  cases h

theorem mod_iff : RingHolds n f (p % n) l ↔ RingHolds n f p l := by
  unfold RingHolds
  simp only [Nat.mod_add_mod]

theorem append_iff :
    RingHolds n f p (l ++ l') ↔ RingHolds n f p l ∧ RingHolds n f (p + l.length) l' := by
  constructor
  · intro h
    refine ⟨fun i x hx => h i x ?_, fun i x hx => ?_⟩
    · rw [List.getElem?_append_left (List.getElem?_eq_some_iff.mp hx).1]
      exact hx
    · rw [Nat.add_assoc]
      refine h (l.length + i) x ?_
      rw [List.getElem?_append_right (Nat.le_add_right ..), Nat.add_sub_cancel_left]
      exact hx
  · intro h i x hx
    by_cases hi : i < l.length
    · rw [List.getElem?_append_left hi] at hx
      exact h.1 i x hx
    · rw [List.getElem?_append_right (Nat.le_of_not_lt hi)] at hx
      have := h.2 (i - l.length) x hx
      rwa [Nat.add_assoc, Nat.add_sub_cancel' (Nat.le_of_not_lt hi)] at this

/-- The list depends on the places it covers only. -/
theorem congr (h : RingHolds n f p l) (hfg : ∀ i < l.length, g ((p + i) % n) = f ((p + i) % n)) :
    RingHolds n g p l := by
  intro i x hx
  rw [hfg i (List.getElem?_eq_some_iff.mp hx).1]
  exact h i x hx

theorem slice_eq (h : RingHolds n f p l) (hn : p + l.length ≤ n) : slice f p l.length = l := by
  refine List.ext_getElem (by simp [slice]) ?_
  intro i h1 h2
  have hp : p + i < n := by omega
  have := h i l[i] (List.getElem?_eq_getElem h2)
  rw [Nat.mod_eq_of_lt hp] at this
  simpa [slice] using this

/-- Across the end it is read in two parts. -/
theorem slice_append (h : RingHolds n f p l) (hp : p ≤ n) (hlen : n < p + l.length)
    (hle : l.length ≤ n) :
    slice f p (n - p) ++ slice f 0 (l.length - (n - p)) = l := by
  obtain ⟨l₁, l₂, rfl, h1⟩ : ∃ l₁ l₂, l = l₁ ++ l₂ ∧ l₁.length = n - p :=
    ⟨l.take (n - p), l.drop (n - p), (List.take_append_drop ..).symm, by simp; omega⟩
  rw [List.length_append] at hlen hle ⊢
  obtain ⟨hl, hr⟩ := append_iff.mp h
  have hend : p + l₁.length = n := by omega
  rw [hend, ← mod_iff, Nat.mod_self] at hr
  rw [← h1, Nat.add_sub_cancel_left, slice_eq hl (by omega), slice_eq hr (by omega)]

theorem overwrite_self {src : Nat → β} {s size : Nat} (hn : p + size ≤ n) :
    RingHolds n (overwrite f p src s size) p (slice src s size) := by
  intro i x hx
  obtain ⟨hi, hx⟩ := List.getElem?_eq_some_iff.mp hx
  have hi' : i < size := by simpa [slice] using hi
  rw [Nat.mod_eq_of_lt (by omega), overwrite, if_pos (by omega), Nat.add_sub_cancel_left]
  simpa [slice] using hx

/-- Distinct positions within one turn of the ring are distinct places. -/
theorem place_ne {a b : Nat} (ha : a < n) (hb : b < n) (hne : a ≠ b) :
    (p + a) % n ≠ (p + b) % n := by
  intro h
  have h' := Nat.ModEq.add_left_cancel' p (show Nat.ModEq n (p + a) (p + b) from h)
  rw [Nat.ModEq, Nat.mod_eq_of_lt ha, Nat.mod_eq_of_lt hb] at h'
  exact hne h'

/-- A write to places behind the list does not touch it: `k` is how far behind
the start of the list the write begins, and it ends before the start comes
around again. -/
theorem overwrite_of_behind {src : Nat → β} {s size k : Nat} (h : RingHolds n f p l)
    (hq : q = (p + k) % n) (hk : l.length ≤ k) (hroom : k + size ≤ n) (hend : q + size ≤ n) :
    RingHolds n (overwrite f q src s size) p l := by
  refine h.congr fun i hi => if_neg ?_
  intro hin
  -- place `(p + i) % n` would be one of those written, `(p + (k + j)) % n`
  obtain ⟨j, hj⟩ := Nat.exists_eq_add_of_le hin.1
  have hplace : (p + i) % n = (p + (k + j)) % n := by
    rw [hj, hq, ← Nat.add_assoc, ← Nat.mod_add_mod (p + k), ← hq, Nat.mod_eq_of_lt]
    omega
  exact place_ne (by omega) (by omega) (by omega) hplace

end RingHolds

end ShmPcc
