import Mathlib

/-!
# Sets held as linked lists

A memory of `next` pointers with a null, and the lists it threads. `Links` follows
the pointers from a head; `Linked` forgets the order: the list from the head holds
exactly the elements of a set, each once. What a program does to such a list (push
an element it has in hand, pop the head, take the whole list, hand it to another
head) is a change of the set, and a write to a `next` pointer does not touch the
lists that do not hold the element.
-/

namespace ShmPcc

open Function

variable {α : Type} {next next' : α → α} {null a b : α} {P Q : α → Prop}

/-- The list threaded from `a`. -/
def Links (next : α → α) (null : α) : α → List α → Prop
  | a, [] => a = null
  | a, b :: l => a = b ∧ b ≠ null ∧ Links next null (next b) l

theorem Links.congr : ∀ {a : α} {l : List α}, Links next null a l →
    (∀ b ∈ l, next' b = next b) → Links next' null a l
  | _, [], h, _ => h
  | _, b :: _, h, heq => by
    refine ⟨h.1, h.2.1, ?_⟩
    rw [heq b (List.mem_cons_self ..)]
    exact h.2.2.congr fun c hc => heq c (.tail _ hc)

theorem Links.unique : ∀ {a : α} {l l' : List α}, Links next null a l → Links next null a l' → l = l'
  | _, [], [], _, _ => rfl
  | _, [], _ :: _, h, h' => absurd (h'.1.symm.trans h) h'.2.1
  | _, _ :: _, [], h, h' => absurd (h.1.symm.trans h') h.2.1
  | _, _ :: _, _ :: _, h, h' => by
    obtain ⟨rfl, -, h⟩ := h
    obtain ⟨rfl, -, h'⟩ := h'
    rw [h.unique h']

theorem Links.after : ∀ {l : List α} {a b : α} {l' : List α}, Links next null a (l ++ b :: l') →
    Links next null (next b) l'
  | [], _, _, _, h => h.2.2
  | _ :: _, _, _, _, h => h.2.2.after

theorem Links.next_of_mem {l : List α} (h : Links next null a l) (hb : b ∈ l) :
    next b = null ∨ next b ∈ l := by
  obtain ⟨l₁, l₂, rfl⟩ := List.append_of_mem hb
  cases l₂ with
  | nil => exact .inl h.after
  | cons c l₂ =>
    refine .inr ?_
    rw [h.after.1]
    simp

theorem Links.insert {c : α} {l' : List α} (hne : c ≠ null) (hb : next' b = c) (hc : next' c = next b) :
    ∀ {l : List α} {a : α}, Links next null a (l ++ b :: l') → (l ++ b :: l').Nodup →
      (∀ d ∈ l ++ b :: l', d ≠ b → next' d = next d) → Links next' null a (l ++ b :: c :: l')
  | [], _, h, hnd, hrest => by
    refine ⟨h.1, h.2.1, hb, hne, ?_⟩
    rw [hc]
    refine h.2.2.congr fun d hd => hrest d (.tail _ hd) ?_
    rintro rfl
    exact (List.nodup_cons.mp hnd).1 hd
  | x :: l, _, h, hnd, hrest => by
    have hx : x ≠ b := by
      rintro rfl
      exact (List.nodup_cons.mp hnd).1 (by simp)
    refine ⟨h.1, h.2.1, ?_⟩
    rw [hrest x (List.mem_cons_self ..) hx]
    exact Links.insert hne hb hc h.2.2 (List.nodup_cons.mp hnd).2
      fun d hd => hrest d (.tail _ hd)

/-- Elements in consecutive places, each pointing to the one behind it. -/
theorem links_range' {f : Nat → α} {n : Nat} : ∀ {k : Nat},
    (∀ j, k ≤ j → j < k + n → f j ≠ null ∧ next (f j) = if j + 1 < k + n then f (j + 1) else null) →
    Links next null (if n = 0 then null else f k) ((List.range' k n).map f) := by
  induction n with
  | zero => exact fun _ => rfl
  | succ n ih =>
    intro k h
    obtain ⟨hne, hnext⟩ := h k (Nat.le_refl _) (by omega)
    refine ⟨if_neg (Nat.succ_ne_zero n), hne, ?_⟩
    have hrest := ih (k := k + 1) fun j hj hlt => by
      have := h j (by omega) (by omega)
      rwa [show k + (n + 1) = k + 1 + n by omega] at this
    rw [hnext]
    by_cases hn : n = 0
    · subst hn
      rw [if_neg (by omega)]
      exact hrest
    · rw [if_pos (by omega)]
      rw [if_neg hn] at hrest
      exact hrest

/-- The list from `a` holds the elements of `P`, each once. -/
def Linked (next : α → α) (null a : α) (P : α → Prop) : Prop :=
  ∃ l, Links next null a l ∧ l.Nodup ∧ ∀ b, b ∈ l ↔ P b

namespace Linked

theorem congr (h : Linked next null a P) (heq : ∀ b, P b → next' b = next b)
    (hP : ∀ b, P b ↔ Q b) : Linked next' null a Q := by
  obtain ⟨l, hl, hnd, hmem⟩ := h
  exact ⟨l, hl.congr fun b hb => heq b ((hmem b).mp hb), hnd, fun b => (hmem b).trans (hP b)⟩

theorem empty (hP : ∀ b, ¬ P b) : Linked next null null P :=
  ⟨[], rfl, List.nodup_nil, fun b => ⟨fun hb => (nomatch hb), fun hb => absurd hb (hP b)⟩⟩

theorem not_of_null (h : Linked next null null P) (b : α) : ¬ P b := by
  obtain ⟨l, hl, _, hmem⟩ := h
  cases l with
  | nil =>
    intro hb
    exact nomatch (hmem b).mpr hb
  | cons c l => exact absurd hl.1.symm hl.2.1

theorem null_of_empty (h : Linked next null a P) (hP : ∀ b, ¬ P b) : a = null := by
  obtain ⟨l, hl, _, hmem⟩ := h
  cases l with
  | nil => exact hl
  | cons b l => exact absurd ((hmem b).mp (.head _)) (hP b)

theorem pop (h : Linked next null a P) (ha : a ≠ null) :
    P a ∧ Linked next null (next a) fun b => P b ∧ b ≠ a := by
  obtain ⟨l, hl, hnd, hmem⟩ := h
  cases l with
  | nil => exact absurd hl ha
  | cons c l =>
    obtain ⟨rfl, _, hl⟩ := hl
    obtain ⟨hnot, hnd⟩ := List.nodup_cons.mp hnd
    refine ⟨(hmem a).mp (.head _), l, hl, hnd, fun b => ?_⟩
    show b ∈ l ↔ P b ∧ b ≠ a
    rw [← hmem b, List.mem_cons]
    constructor
    · intro hb
      refine ⟨.inr hb, ?_⟩
      rintro rfl
      exact hnot hb
    · intro hb
      exact hb.1.resolve_left hb.2

theorem push [DecidableEq α] (h : Linked next null a P) (hb : ¬ P b) (hne : b ≠ null) :
    Linked (update next b a) null b fun c => P c ∨ c = b := by
  obtain ⟨l, hl, hnd, hmem⟩ := h
  have hnot : b ∉ l := fun hbl => hb ((hmem b).mp hbl)
  refine ⟨b :: l, ⟨rfl, hne, ?_⟩, List.nodup_cons.mpr ⟨hnot, hnd⟩, fun c => ?_⟩
  · rw [update_self]
    refine hl.congr fun c hc => update_of_ne ?_ ..
    rintro rfl
    exact hnot hc
  · rw [List.mem_cons, hmem c, or_comm]

theorem of_range {f : Nat → α} {n : Nat} (hn : n ≠ 0) (hf : ∀ j, j < n → f j ≠ null)
    (hinj : ∀ i j, i < n → j < n → f i = f j → i = j)
    (hnext : ∀ j, j < n → next (f j) = if j + 1 < n then f (j + 1) else null)
    (hP : ∀ b, P b ↔ ∃ j, j < n ∧ b = f j) : Linked next null (f 0) P := by
  have hlinks : Links next null (f 0) ((List.range' 0 n).map f) := by
    have hall : Links next null (if n = 0 then null else f 0) ((List.range' 0 n).map f) := by
      refine links_range' fun j _ hlt => ?_
      rw [Nat.zero_add] at hlt ⊢
      exact ⟨hf j hlt, hnext j hlt⟩
    rwa [if_neg hn] at hall
  refine ⟨_, hlinks, ?_, fun b => ?_⟩
  · refine List.Nodup.map_on (fun i hi j hj heq => ?_) List.nodup_range'
    rw [List.mem_range'_1] at hi hj
    exact hinj i j (by omega) (by omega) heq
  · rw [hP, List.mem_map]
    constructor
    · intro hb
      obtain ⟨j, hj, rfl⟩ := hb
      rw [List.mem_range'_1] at hj
      exact ⟨j, by omega, rfl⟩
    · intro hb
      obtain ⟨j, hj, rfl⟩ := hb
      exact ⟨j, by rw [List.mem_range'_1]; omega, rfl⟩

end Linked

end ShmPcc
