import Mathlib

/-!
# Reclamation by epochs

Readers publish the epoch at which they enter a section, and what is retired
gets the epoch of its retirement. `Epochs` is the part of such a scheme that
safety is about: the current epoch, the published ones, which readers are inside
a section and since when, and the epochs of what was retired, in the order of
retirement. Time is counted in retirements: a section that was entered when `k`
things had been retired was entered before thing `i` was exactly when `k ≤ i`.

`Epochs.Step` are the steps of a sound scheme. Two facts follow from them.
`Guarded` is invariant: a section holds everything retired since it was entered
at an epoch no lower than the one it published. And `Spares`, "no section of
these readers that was entered before `i` was retired stands in the way of a
bound `b`", is never lost again once `i` is retired, whatever the others do; so
a bound may be collected one reader at a time.
-/

namespace ShmPcc

open Function

structure Epochs (ι E : Type) where
  now : E
  published : ι → E
  inside : ι → Option Nat
  retired : List E

namespace Epochs

variable {ι E : Type}

section Step

variable [DecidableEq ι] [LE E]

/-- One step of a sound scheme. -/
inductive Step (s : Epochs ι E) : Epochs ι E → Prop where
  | stay : Step s s
  | publish {j : ι} {e : E} (h : s.inside j = none) :
      Step s { s with published := update s.published j e }
  | enter {j : ι} {e : E} (he : e ≤ s.now) : Step s { s with
        published := update s.published j e
        inside := update s.inside j (some s.retired.length) }
  | leave {j : ι} : Step s { s with inside := update s.inside j none }
  | retire : Step s { s with retired := s.retired ++ [s.now] }
  | advance {e : E} (h : s.now ≤ e) : Step s { s with now := e }

end Step

/-- A section holds back everything retired since it was entered. -/
def Guarded [LE E] (s : Epochs ι E) : Prop :=
  ∀ j k, s.inside j = some k → s.published j ≤ s.now ∧
    ∀ i e, k ≤ i → s.retired[i]? = some e → s.published j ≤ e

/-- No section of a reader in `P` entered before `i` was retired keeps it from
being reclaimed below `b`, unless its epoch says so. -/
def Spares [LE E] (s : Epochs ι E) (P : ι → Prop) (b : E) (i : Nat) : Prop :=
  ∀ j k e, P j → s.inside j = some k → k ≤ i → s.retired[i]? = some e → b ≤ e

variable {s s' : Epochs ι E}

section Kept

variable [DecidableEq ι]

theorem inside_update {j l : ι} {k : Nat} {v : Option Nat} (h : update s.inside j v l = some k) :
    l = j ∧ v = some k ∨ l ≠ j ∧ s.inside l = some k := by
  rw [update_apply] at h
  split at h
  · next hl => exact .inl ⟨hl, h⟩
  · next hl => exact .inr ⟨hl, h⟩

theorem Step.guarded [Preorder E] (h : Step s s') (hg : Guarded s) : Guarded s' := by
  intro l k hl
  cases h with
  | stay => exact hg l k hl
  | @publish j e hnone =>
    have hne : l ≠ j := by
      rintro rfl
      rw [hnone] at hl
      cases hl
    dsimp only
    rw [update_of_ne hne]
    exact hg l k hl
  | @enter j e he =>
    dsimp only
    rcases inside_update hl with ⟨rfl, hk⟩ | ⟨hne, hl⟩
    · -- nothing has been retired since
      rw [update_self]
      injection hk with hk
      refine ⟨he, fun i e' hi hr => ?_⟩
      have := (List.getElem?_eq_some_iff.mp hr).1
      omega
    · rw [update_of_ne hne]
      exact hg l k hl
  | leave =>
    rcases inside_update hl with ⟨_, hk⟩ | ⟨_, hl⟩
    · cases hk
    · exact hg l k hl
  | retire =>
    obtain ⟨h1, h2⟩ := hg l k hl
    refine ⟨h1, fun i e hi hr => ?_⟩
    by_cases hlt : i < s.retired.length
    · rw [List.getElem?_append_left hlt] at hr
      exact h2 i e hi hr
    · rw [List.getElem?_append_right (Nat.le_of_not_lt hlt)] at hr
      rw [← List.mem_singleton.mp (List.mem_of_getElem? hr)] at h1
      exact h1
  | advance hle =>
    obtain ⟨h1, h2⟩ := hg l k hl
    exact ⟨le_trans h1 hle, h2⟩

/-- What is retired stays retired, at its epoch. -/
theorem Step.retired [LE E] {i : Nat} {e : E} (h : Step s s') (hi : s.retired[i]? = some e) :
    s'.retired[i]? = some e := by
  cases h with
  | retire =>
    rw [List.getElem?_append_left (List.getElem?_eq_some_iff.mp hi).1]
    exact hi
  | _ => exact hi

theorem Spares.step [LE E] {P : ι → Prop} {b : E} {i : Nat} (hi : i < s.retired.length)
    (h : Spares s P b i) (hs : Step s s') : Spares s' P b i := by
  intro l k e hP hl hk hr
  cases hs with
  | enter he =>
    rcases inside_update hl with ⟨_, hk'⟩ | ⟨_, hl⟩
    · -- entered after `i` was retired
      injection hk' with hk'
      omega
    · exact h l k e hP hl hk hr
  | leave =>
    rcases inside_update hl with ⟨_, hk'⟩ | ⟨_, hl⟩
    · cases hk'
    · exact h l k e hP hl hk hr
  | retire =>
    rw [List.getElem?_append_left hi] at hr
    exact h l k e hP hl hk hr
  | _ => exact h l k e hP hl hk hr

end Kept

variable {b : E} {P : ι → Prop}

theorem Spares.none [LE E] {i : Nat} (hP : ∀ j, ¬ P j) : Spares s P b i :=
  fun j _ _ hj => absurd hj (hP j)

variable {Q : ι → Prop}

theorem Spares.mono [LE E] {b' : E} {i : Nat} (h : Spares s P b i)
    (hQ : ∀ j k, s.inside j = some k → Q j → P j)
    (hb : ∀ e, s.retired[i]? = some e → b ≤ e → b' ≤ e) : Spares s Q b' i :=
  fun j k e hj hin hk hr => hb e hr (h j k e (hQ j k hin hj) hin hk hr)

/-- One more reader is taken into the bound. -/
theorem Spares.read [LinearOrder E] {i : Nat} {j : ι} (hg : Guarded s) (h : Spares s P b i)
    (hQ : ∀ l, Q l → P l ∨ l = j) : Spares s Q (min b (s.published j)) i := by
  intro l k e hl hin hk hr
  rcases hQ l hl with hP | rfl
  · exact le_trans (min_le_left ..) (h l k e hP hin hk hr)
  · exact le_trans (min_le_right ..) ((hg l k hin).2 i e hk hr)

/-- What is reclaimed below the bound was retired before every open section. -/
theorem Spares.safe [Preorder E] {e : E} {i : Nat} (h : Spares s (fun _ => True) b i)
    (hr : s.retired[i]? = some e) (hlt : e < b) : ∀ j k, s.inside j = some k → i < k := by
  intro j k hin
  by_contra hle
  exact absurd (h j k e trivial hin (Nat.le_of_not_lt hle) hr) (not_le_of_gt hlt)

/-! ### Bounds that are handed around

A bound that is no later than the current epoch stays a bound for what is still
to be retired. -/

/-- `b` holds nothing of the readers in `P` back, now and from now on. -/
def Bound [LE E] (s : Epochs ι E) (P : ι → Prop) (b : E) : Prop :=
  b ≤ s.now ∧ ∀ i, s.Spares P b i

theorem Step.now_le [DecidableEq ι] [Preorder E] (h : Step s s') : s.now ≤ s'.now := by
  cases h with
  | advance hle => exact hle
  | _ => exact le_rfl

theorem Bound.step [DecidableEq ι] [Preorder E] (h : Bound s P b) (hs : Step s s') :
    Bound s' P b := by
  refine ⟨le_trans h.1 hs.now_le, fun i => ?_⟩
  by_cases hi : i < s.retired.length
  · exact (h.2 i).step hi hs
  · intro j k e _ _ _ hr
    cases hs with
    | retire =>
      rw [List.getElem?_append_right (Nat.le_of_not_lt hi)] at hr
      rw [List.mem_singleton.mp (List.mem_of_getElem? hr)]
      exact h.1
    | _ => exact absurd (List.getElem?_eq_some_iff.mp hr).1 hi

theorem Bound.read [LinearOrder E] {j : ι} (hg : Guarded s) (h : Bound s P b)
    (hQ : ∀ l, Q l → P l ∨ l = j) : Bound s Q (min b (s.published j)) :=
  ⟨le_trans (min_le_left ..) h.1, fun i => (h.2 i).read hg hQ⟩

theorem Bound.mono [LE E] (h : Bound s P b) (hQ : ∀ j k, s.inside j = some k → Q j → P j) :
    Bound s Q b :=
  ⟨h.1, fun i => (h.2 i).mono hQ fun _ _ hb => hb⟩

end Epochs

end ShmPcc
