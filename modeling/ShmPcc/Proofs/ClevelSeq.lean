import ShmPcc.Proofs.ClevelSearch

/-!
# What holds between calls that run one after another

`Seq H m abs` is the invariant of a table on which calls never overlap: words
are well placed, the slots hold the map `abs`, every item lies in a published
level and ahead of the rehasher, the top level has nothing above it, and
`is_resizing` says whether the chain has more than two levels.

Each change the code makes to the memory has one lemma that carries `Seq`
across it: an entry allocated or deleted, a slot written, cleared or moved, a
level appended, a bucket passed, a level dropped.
-/

namespace ShmPcc.ClevelHash

open Function

variable {K T : Type}

structure Seq (H : Table K) (m : Mem K T) (abs : K → Option T) : Prop where
  placed : WellPlaced H m
  rep : Represents m.entryAt abs
  chain : m.cur.lastLevel < m.cur.firstLevel
  top : m.levels = m.cur.firstLevel + 1
  flag : m.cur.isResizing = true ↔ m.cur.lastLevel + 2 ≤ m.cur.firstLevel
  live : ∀ q, m.slots q ≠ 0 → m.cur.lastLevel ≤ q.level ∧ q.level ≤ m.cur.firstLevel
  ahead : ∀ q, m.slots q ≠ 0 → q.level = m.cur.lastLevel → m.expandBucket ≤ q.bucket
  bucket : m.expandBucket < H.capacity m.cur.lastLevel
  idle : m.cur.isResizing = false → m.expandBucket = 0

theorem entryAt_update (m : Mem K T) (q : Slot) (w : Word) :
    ({ m with slots := update m.slots q w } : Mem K T).entryAt =
      update m.entryAt q (if addr w = 0 then none else m.entries (addr w)) := by
  funext p
  by_cases hp : p = q
  · subst hp
    simp only [Mem.entryAt, update_self]
  · simp only [Mem.entryAt, update_of_ne hp]

theorem entryAt_update_zero (m : Mem K T) (q : Slot) :
    ({ m with slots := update m.slots q 0 } : Mem K T).entryAt =
      update m.entryAt q none := by
  rw [entryAt_update, if_pos addr_zero]

namespace WellPlaced

variable {H : Table K} {m : Mem K T}

theorem write (h : WellPlaced H m) {q : Slot} {w : Word} (hw : Placed H m.entries q w) :
    WellPlaced H { m with slots := update m.slots q w } := by
  intro p hp
  dsimp only at hp ⊢
  by_cases hpq : p = q
  · subst hpq
    rw [update_self]
    exact hw
  · rw [update_of_ne hpq] at hp ⊢
    exact h p hp

theorem clear (h : WellPlaced H m) (q : Slot) :
    WellPlaced H { m with slots := update m.slots q 0 } := by
  intro p hp
  dsimp only at hp ⊢
  by_cases hpq : p = q
  · subst hpq
    rw [update_self] at hp
    exact absurd rfl hp
  · rw [update_of_ne hpq] at hp ⊢
    exact h p hp

theorem entries (h : WellPlaced H m) {E : Word → Option (K × T)}
    (hE : ∀ q, m.slots q ≠ 0 → E (addr (m.slots q)) = m.entries (addr (m.slots q))) :
    WellPlaced H { m with entries := E } := by
  intro q hq
  refine ⟨(h q hq).addr_ne, ?_⟩
  obtain ⟨kv, he, hrest⟩ := (h q hq).entry
  exact ⟨kv, (hE q hq).trans he, hrest⟩

end WellPlaced

namespace Seq

variable {H : Table K} {m : Mem K T} {abs : K → Option T}

theorem book (h : Seq H m abs) (cursor : Nat) (hold : Hold) (owner : Word → Option Nat)
    (ops : List (Nat × Op K T)) (calls : K → List (Op K T)) :
    Seq H { m with cursor := cursor, hold := hold, owner := owner, ops := ops, calls := calls }
      abs :=
  ⟨h.placed, h.rep, h.chain, h.top, h.flag, h.live, h.ahead, h.bucket, h.idle⟩

theorem entries (h : Seq H m abs) {E : Word → Option (K × T)}
    (hE : ∀ q, m.slots q ≠ 0 → E (addr (m.slots q)) = m.entries (addr (m.slots q))) :
    Seq H { m with entries := E } abs := by
  have hat : ({ m with entries := E } : Mem K T).entryAt = m.entryAt := by
    funext q
    simp only [Mem.entryAt]
    split
    · rfl
    · next ha => exact hE q fun hz => ha (by rw [hz, addr_zero])
  exact ⟨h.placed.entries hE, by rw [hat]; exact h.rep, h.chain, h.top, h.flag, h.live, h.ahead,
    h.bucket, h.idle⟩

theorem slot_eq_of_addr (h : Seq H m abs) {p q : Slot} (hp : m.slots p ≠ 0)
    (hq : m.slots q ≠ 0) (ha : addr (m.slots p) = addr (m.slots q)) : p = q := by
  obtain ⟨⟨k, v⟩, hkv⟩ := h.placed.entryAt_isSome hp
  have hq' : m.entryAt q = some (k, v) := by
    rw [entryAt_of_addr (h.placed q hq).addr_ne, ← ha, ← entryAt_of_addr (h.placed p hp).addr_ne]
    exact hkv
  exact h.rep.once hkv hq'

theorem not_pointed (h : Seq H m abs) {a : Word} (ha : m.entries a = none) (q : Slot)
    (hq : m.slots q ≠ 0) : addr (m.slots q) ≠ a := by
  rintro rfl
  obtain ⟨kv, he, _⟩ := (h.placed q hq).entry
  rw [ha] at he
  cases he

variable [DecidableEq K]

theorem write (h : Seq H m abs) {q : Slot} {w : Word} {k : K} {v : T} (hw : Placed H m.entries q w)
    (he : m.entries (addr w) = some (k, v)) (hold : ∀ kv, m.entryAt q = some kv → kv.1 = k)
    (hk : ∀ p u, m.entryAt p = some (k, u) → p = q)
    (hlive : m.cur.lastLevel ≤ q.level ∧ q.level ≤ m.cur.firstLevel)
    (hahead : q.level = m.cur.lastLevel → m.expandBucket ≤ q.bucket) :
    Seq H { m with slots := update m.slots q w } (update abs k (some v)) := by
  refine ⟨h.placed.write hw, ?_, h.chain, h.top, h.flag, ?_, ?_, h.bucket, h.idle⟩
  · rw [entryAt_update, if_neg hw.addr_ne, he]
    exact h.rep.write v hold hk
  · intro p hp
    dsimp only at hp ⊢
    by_cases hpq : p = q
    · rw [hpq]
      exact hlive
    · rw [update_of_ne hpq] at hp
      exact h.live p hp
  · intro p hp hl
    dsimp only at hp hl ⊢
    by_cases hpq : p = q
    · subst hpq
      exact hahead hl
    · rw [update_of_ne hpq] at hp
      exact h.ahead p hp hl

theorem clear (h : Seq H m abs) {q : Slot} {k : K} {v : T} (hq : m.entryAt q = some (k, v)) :
    Seq H { m with slots := update m.slots q 0 } (update abs k none) := by
  have hsub : ∀ p, update m.slots q 0 p ≠ 0 → m.slots p ≠ 0 := by
    intro p hp
    by_cases hpq : p = q
    · rw [hpq, update_self] at hp
      exact absurd rfl hp
    · rwa [update_of_ne hpq] at hp
  refine ⟨h.placed.clear q, ?_, h.chain, h.top, h.flag, ?_, ?_, h.bucket, h.idle⟩
  · rw [entryAt_update_zero]
    exact h.rep.remove hq
  · exact fun p hp => h.live p (hsub p hp)
  · exact fun p hp => h.ahead p (hsub p hp)

theorem move (h : Seq H m abs) {src dst : Slot} (hsrc : m.slots src ≠ 0)
    (hdst : m.slots dst = 0) (hw : Placed H m.entries dst (m.slots src))
    (hlive : m.cur.lastLevel < dst.level ∧ dst.level ≤ m.cur.firstLevel) :
    Seq H { m with slots := update (update m.slots dst (m.slots src)) src 0 }
      abs := by
  obtain ⟨⟨k, v⟩, hkv⟩ := h.placed.entryAt_isSome hsrc
  have hnone : m.entryAt dst = none := by rw [Mem.entryAt, if_pos (by rw [hdst, addr_zero])]
  have hsub : ∀ p, update (update m.slots dst (m.slots src)) src 0 p ≠ 0 →
      p = dst ∨ m.slots p ≠ 0 := by
    intro p hp
    rw [update_apply] at hp
    split at hp
    · exact absurd rfl hp
    · by_cases hpd : p = dst
      · exact .inl hpd
      · rw [update_of_ne hpd] at hp
        exact .inr hp
  refine ⟨(h.placed.write hw).clear src, ?_, h.chain, h.top, h.flag, ?_, ?_, h.bucket, h.idle⟩
  · have hdstAt := entryAt_update m dst (m.slots src)
    rw [if_neg hw.addr_ne, ← entryAt_of_addr hw.addr_ne, hkv] at hdstAt
    have hat := entryAt_update_zero { m with slots := update m.slots dst (m.slots src) } src
    rw [hdstAt] at hat
    rw [hat]
    exact h.rep.move hkv hnone
  · intro p hp
    rcases hsub p hp with rfl | hp
    · exact ⟨Nat.le_of_lt hlive.1, hlive.2⟩
    · exact h.live p hp
  · intro p hp hl
    rcases hsub p hp with rfl | hp
    · dsimp only [Mem.cur] at hl hlive
      omega
    · exact h.ahead p hp hl

end Seq

/-! ## Levels -/

/-- The memory after `expand` appended a level and published it. -/
def Mem.grown (m : Mem K T) : Mem K T :=
  { m with
    levels := m.levels + 1
    metaPtr := m.metaPtr + 1
    metas := update m.metas (m.metaPtr + 1)
      ⟨m.cur.firstLevel + 1, m.cur.lastLevel, true⟩ }

@[simp] theorem Mem.grown_cur (m : Mem K T) :
    m.grown.cur = ⟨m.cur.firstLevel + 1, m.cur.lastLevel, true⟩ := update_self ..

variable {abs : K → Option T}

theorem Seq.grown {H : Table K} {m : Mem K T} (h : Seq H m abs) : Seq H m.grown abs := by
  have hc := h.chain
  refine ⟨h.placed, h.rep, ?_, ?_, ?_, ?_, ?_, ?_, ?_⟩
  · rw [Mem.grown_cur]
    dsimp only
    omega
  · rw [Mem.grown_cur]
    show m.levels + 1 = m.cur.firstLevel + 1 + 1
    rw [h.top]
  · rw [Mem.grown_cur]
    dsimp only
    exact ⟨fun _ => by omega, fun _ => rfl⟩
  · intro q hq
    have hl := h.live q hq
    rw [Mem.grown_cur]
    dsimp only
    omega
  · intro q hq hl
    rw [Mem.grown_cur] at hl
    exact h.ahead q hq hl
  · rw [Mem.grown_cur]
    exact h.bucket
  · intro hf
    rw [Mem.grown_cur] at hf
    cases hf

theorem Seq.passBucket {H : Table K} {m : Mem K T} (h : Seq H m abs)
    (hempty : ∀ q, q.level = m.cur.lastLevel → q.bucket = m.expandBucket → m.slots q = 0)
    (hres : m.cur.isResizing = true) (hlt : m.expandBucket + 1 < H.capacity m.cur.lastLevel) :
    Seq H { m with expandBucket := m.expandBucket + 1 } abs := by
  refine ⟨h.placed, h.rep, h.chain, h.top, h.flag, h.live, ?_, hlt, ?_⟩
  · intro q hq hl
    have hle := h.ahead q hq hl
    have hne : q.bucket ≠ m.expandBucket := fun hb => hq (hempty q hl hb)
    dsimp only
    omega
  · intro hf
    exact absurd (hres.symm.trans hf) (by decide)

/-- The memory after the last bucket of the bottom level was passed and the
level dropped. -/
def Mem.dropped (m : Mem K T) : Mem K T :=
  { m with
    metaPtr := m.metaPtr + 1
    metas := update m.metas (m.metaPtr + 1)
      ⟨m.cur.firstLevel, m.cur.lastLevel + 1, m.cur.firstLevel - m.cur.lastLevel != 2⟩
    expandBucket := 0 }

@[simp] theorem Mem.dropped_cur (m : Mem K T) : m.dropped.cur =
    ⟨m.cur.firstLevel, m.cur.lastLevel + 1, m.cur.firstLevel - m.cur.lastLevel != 2⟩ :=
  update_self ..

theorem Seq.dropped {H : Table K} {m : Mem K T} (h : Seq H m abs) (hp : 2 ≤ H.hashpower)
    (hempty : ∀ q, q.level = m.cur.lastLevel → q.bucket = m.expandBucket → m.slots q = 0)
    (hres : m.cur.isResizing = true) (hlast : m.expandBucket + 1 = H.capacity m.cur.lastLevel) :
    Seq H m.dropped abs := by
  have hflag := h.flag.mp hres
  have hup : ∀ q, m.slots q ≠ 0 → m.cur.lastLevel < q.level := by
    intro q hq
    rcases Nat.eq_or_lt_of_le (h.live q hq).1 with hl | hl
    · obtain ⟨kv, _, _, hslot⟩ := (h.placed q hq).entry
      have hlt := hslot.1.lt hp
      have hle := h.ahead q hq hl.symm
      have hne : q.bucket ≠ m.expandBucket := fun hb => hq (hempty q hl.symm hb)
      rw [← hl] at hlt
      omega
    · exact hl
  refine ⟨h.placed, h.rep, ?_, ?_, ?_, ?_, ?_, ?_, fun _ => rfl⟩
  · rw [Mem.dropped_cur]
    dsimp only
    omega
  · rw [Mem.dropped_cur]
    exact h.top
  · rw [Mem.dropped_cur]
    simp only [bne_iff_ne, ne_eq]
    omega
  · intro q hq
    have hl := hup q hq
    rw [Mem.dropped_cur]
    exact ⟨hl, (h.live q hq).2⟩
  · exact fun q _ _ => Nat.zero_le _
  · rw [Mem.dropped_cur]
    have hcap := Table.capacity_ge hp (m.cur.lastLevel + 1)
    show 0 < _
    dsimp only
    omega

end ShmPcc.ClevelHash
