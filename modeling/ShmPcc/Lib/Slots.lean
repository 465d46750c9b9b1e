import Mathlib

/-!
# Slots that represent a finite map

A table keeps key-value pairs in slots. `E` is the content of the slots, and
`Represents E abs` says that the table is the map `abs`: no key is in two
slots, and the pairs in the slots are exactly those of the map. The four
changes a table makes to one slot at a time, putting a new key into an empty
slot, replacing a value, removing a key and moving a pair to another slot, act
on the map as one expects.
-/

namespace ShmPcc

open Function

variable {S K T : Type} {E : S → Option (K × T)} {abs : K → Option T}

/-- The slots `E` hold the map `abs`, each key once. -/
structure Represents (E : S → Option (K × T)) (abs : K → Option T) : Prop where
  once : ∀ {p q : S} {k : K} {v w : T}, E p = some (k, v) → E q = some (k, w) → p = q
  holds : ∀ (k : K) (v : T), abs k = some v ↔ ∃ p, E p = some (k, v)

namespace Represents

theorem absent (h : Represents E abs) {k : K} (hk : abs k = none) (p : S) (v : T) :
    E p ≠ some (k, v) := by
  intro hp
  have habs := (h.holds k v).mpr ⟨p, hp⟩
  rw [hk] at habs
  cases habs

theorem empty : Represents (fun _ : S => (none : Option (K × T))) (fun _ => none) where
  once := by
    intro p q k v w hp
    cases hp
  holds k v := ⟨fun h => (by cases h), fun ⟨_, h⟩ => (by cases h)⟩

variable [DecidableEq S] [DecidableEq K]

/-- Writing a pair with key `k` into a slot where no other slot has the key. -/
theorem write (h : Represents E abs) {p : S} {k : K} (v : T)
    (hp : ∀ kv, E p = some kv → kv.1 = k) (hk : ∀ q w, E q = some (k, w) → q = p) :
    Represents (update E p (some (k, v))) (update abs k (some v)) where
  once := by
    intro q q' k' w w' hq hq'
    by_cases h1 : q = p <;> by_cases h2 : q' = p
    · rw [h1, h2]
    · rw [h1, update_self] at hq
      rw [update_of_ne h2] at hq'
      injection hq with hq
      injection hq with hk1 _
      subst hk1
      exact absurd (hk q' w' hq') h2
    · rw [update_of_ne h1] at hq
      rw [h2, update_self] at hq'
      injection hq' with hq'
      injection hq' with hk1 _
      subst hk1
      exact absurd (hk q w hq) h1
    · rw [update_of_ne h1] at hq
      rw [update_of_ne h2] at hq'
      exact h.once hq hq'
  holds k' w := by
    by_cases hkk : k' = k
    · subst hkk
      rw [update_self]
      constructor
      · intro hv
        exact ⟨p, by rw [update_self, Option.some.inj hv]⟩
      · rintro ⟨q, hq⟩
        rw [update_apply] at hq
        split at hq
        · injection hq with hq
          injection hq with _ hq
          rw [hq]
        · next h1 => exact absurd (hk q w hq) h1
    · rw [update_of_ne hkk, h.holds]
      constructor
      · rintro ⟨q, hq⟩
        refine ⟨q, ?_⟩
        rw [update_of_ne, hq]
        rintro rfl
        exact hkk (hp _ hq)
      · rintro ⟨q, hq⟩
        refine ⟨q, ?_⟩
        by_cases h1 : q = p
        · rw [h1, update_self] at hq
          injection hq with hq
          injection hq with hq _
          exact absurd hq.symm hkk
        · rwa [update_of_ne h1] at hq

theorem put (h : Represents E abs) {p : S} {k : K} (v : T) (hp : E p = none) (hk : abs k = none) :
    Represents (update E p (some (k, v))) (update abs k (some v)) := by
  refine h.write v ?_ ?_
  · intro kv hkv
    rw [hp] at hkv
    cases hkv
  · intro q w hq
    exact absurd hq (h.absent hk q w)

theorem remove (h : Represents E abs) {p : S} {k : K} {v : T} (hp : E p = some (k, v)) :
    Represents (update E p none) (update abs k none) where
  once := by
    intro q q' k' w w' hq hq'
    by_cases h1 : q = p
    · rw [h1, update_self] at hq
      cases hq
    · by_cases h2 : q' = p
      · rw [h2, update_self] at hq'
        cases hq'
      · rw [update_of_ne h1] at hq
        rw [update_of_ne h2] at hq'
        exact h.once hq hq'
  holds k' w := by
    by_cases hkk : k' = k
    · subst hkk
      rw [update_self]
      refine ⟨fun hc => (by cases hc), ?_⟩
      rintro ⟨q, hq⟩
      rw [update_apply] at hq
      split at hq
      · cases hq
      · next h1 => exact absurd (h.once hq hp) h1
    · rw [update_of_ne hkk, h.holds]
      constructor
      · rintro ⟨q, hq⟩
        refine ⟨q, ?_⟩
        rw [update_of_ne, hq]
        rintro rfl
        rw [hp] at hq
        injection hq with hq
        injection hq with hq _
        exact hkk hq.symm
      · rintro ⟨q, hq⟩
        refine ⟨q, ?_⟩
        by_cases h1 : q = p
        · rw [h1, update_self] at hq
          cases hq
        · rwa [update_of_ne h1] at hq

/-- Moving a pair is removing it and putting it back elsewhere. -/
theorem move (h : Represents E abs) {p q : S} {kv : K × T} (hp : E p = some kv) (hq : E q = none) :
    Represents (update (update E q (some kv)) p none) abs := by
  obtain ⟨k, v⟩ := kv
  have hpq : p ≠ q := by
    rintro rfl
    rw [hp] at hq
    cases hq
  have hback := (h.remove hp).put v
    (by rw [update_of_ne (Ne.symm hpq), hq]) (update_self ..)
  rw [update_comm hpq, update_idem] at hback
  rwa [show update abs k (some v) = abs from
    update_eq_self_iff.mpr ((h.holds k v).mpr ⟨p, hp⟩).symm] at hback

end Represents

end ShmPcc
