import ShmPcc.Ref.HelpUpdate

/-!
# What every step of `HelpUpdate` keeps

The values that went into the global pointer are pairwise different, so each
has a rank, its place in the install history, and a replica holds the value of
some rank. Four facts about ranks carry the protocol.

* `sorted`: a replica is never ahead of one with a smaller index. This is what
  a reader relies on that starts helping at its own successor.
* `settled`: while the global pointer is unlocked, every replica is at the
  newest rank.
* A helper moves a replica from a strictly smaller rank to the rank of the
  value it helps. It learned that in two loads: the replica held another
  value, and afterwards the global pointer still held the one it helps.
* A rank never goes down (`Evolve`), so what a helper saw of the replicas it
  passed stays true.

These hold in every run. `Tight` adds what linearizability needs and does not
hold in every run: a value that is no longer the newest has reached every
replica, and so has a value that a replica holds unlocked.
-/

namespace ShmPcc.HelpUpdate

open LockedPointer Function

/-! ## The lock bit -/

theorem getLsbD_clearLockBit (p : Ptr) {i : Nat} (hi : i < 64) :
    (clearLockBit p).getLsbD i = (p.getLsbD i && !decide (i = 0)) := by
  rw [clearLockBit, BitVec.getLsbD_and, BitVec.getLsbD_not, BitVec.getLsbD_one]
  simp [hi]

theorem getLsbD_setLockBit (p : Ptr) (i : Nat) :
    (setLockBit p).getLsbD i = (p.getLsbD i || decide (i = 0)) := by
  rw [setLockBit, BitVec.getLsbD_or, BitVec.getLsbD_one]
  simp

theorem and_one_iff {p : Ptr} : p &&& 1#64 = 0#64 ↔ p.getLsbD 0 = false := by
  constructor
  · intro h
    have h0 := congrArg (fun x => BitVec.getLsbD x 0) h
    simpa using h0
  · intro h
    apply BitVec.eq_of_getLsbD_eq
    intro i hi
    rw [BitVec.getLsbD_and, BitVec.getLsbD_one, BitVec.getLsbD_zero]
    rcases Nat.eq_zero_or_pos i with rfl | hpos
    · rw [h]; rfl
    · simp only [Nat.zero_lt_succ, decide_true, Bool.true_and]
      rw [show decide (i = 0) = false from decide_eq_false (by omega), Bool.and_false]

theorem clearLock_eq (p : Ptr) : clearLock p = clearLockBit p := by
  unfold clearLock
  split
  · next h => rw [h]; decide
  · rfl

theorem fromLocked_eq (p : Ptr) : fromLocked p = clearLock p := by
  rw [clearLock_eq, fromLocked]

theorem hasLock_eq (p : Ptr) : hasLock p = p.getLsbD 0 := by
  unfold hasLock
  split
  · next h => rw [h]; rfl
  · cases hp : p.getLsbD 0 with
    | false => simp [and_one_iff.mpr hp]
    | true =>
      rw [bne_iff_ne, Ne, and_one_iff, hp]
      simp

theorem hasLock_false_iff {p : Ptr} : hasLock p = false ↔ p &&& 1#64 = 0#64 := by
  rw [hasLock_eq, and_one_iff]

theorem hasLock_clearLock (p : Ptr) : hasLock (clearLock p) = false := by
  rw [clearLock_eq, hasLock_eq, getLsbD_clearLockBit p (by decide)]
  simp

theorem hasLock_withLock (p : Ptr) : hasLock (withLock p) = true := by
  rw [hasLock_eq, withLock, getLsbD_setLockBit]
  simp

theorem clearLock_of_unlocked {p : Ptr} (h : hasLock p = false) : clearLock p = p := by
  rw [hasLock_eq] at h
  rw [clearLock_eq]
  apply BitVec.eq_of_getLsbD_eq
  intro i hi
  rw [getLsbD_clearLockBit p hi]
  rcases Nat.eq_zero_or_pos i with rfl | hpos
  · rw [h]; rfl
  · rw [show decide (i = 0) = false from decide_eq_false (by omega), Bool.not_false,
      Bool.and_true]

theorem clearLock_withLock {p : Ptr} (h : hasLock p = false) : clearLock (withLock p) = p := by
  conv_rhs => rw [← clearLock_of_unlocked h]
  rw [clearLock_eq, clearLock_eq, withLock]
  apply BitVec.eq_of_getLsbD_eq
  intro i hi
  rw [getLsbD_clearLockBit _ hi, getLsbD_clearLockBit _ hi, getLsbD_setLockBit]
  by_cases h0 : i = 0 <;> simp [h0]

theorem withLock_clearLock {p : Ptr} (h : hasLock p = true) : withLock (clearLock p) = p := by
  rw [hasLock_eq] at h
  rw [clearLock_eq, withLock]
  apply BitVec.eq_of_getLsbD_eq
  intro i hi
  rw [getLsbD_setLockBit, getLsbD_clearLockBit _ hi]
  rcases Nat.eq_zero_or_pos i with rfl | hpos
  · rw [h]; rfl
  · rw [show decide (i = 0) = false from decide_eq_false (by omega), Bool.not_false,
      Bool.and_true, Bool.or_false]

/-! ## Ranks -/

namespace Mem

def rank (m : Mem) (v : Ptr) : Nat := m.installed.idxOf v

/-- The lock-cleared value of a replica. -/
def val (m : Mem) (i : Nat) : Ptr := clearLock (m.replicaPtrs i)

def newest (m : Mem) : Ptr := clearLock m.globalPtr

end Mem

/-- Every replica is at `v` or past it. -/
def Reached (N : Nat) (m : Mem) (v : Ptr) : Prop :=
  ∀ i < N, m.rank v ≤ m.rank (m.val i)

structure Inv (N : Nat) (m : Mem) : Prop where
  nodup : m.installed.Nodup
  unlocked : ∀ v ∈ m.installed, hasLock v = false
  issued : ∀ v ∈ m.installed, m.issuer v ≠ none
  last : m.installed.getLast? = some m.newest
  held : ∀ i < N, m.val i ∈ m.installed
  sorted : ∀ i j, i ≤ j → j < N → m.rank (m.val j) ≤ m.rank (m.val i)
  settled : hasLock m.globalPtr = false → ∀ i < N, m.val i = m.newest

structure Tight (N : Nat) (m : Mem) : Prop where
  past : ∀ v ∈ m.installed, v ≠ m.newest → Reached N m v
  open_ : ∀ i < N, hasLock (m.replicaPtrs i) = false → Reached N m (m.val i)

/-- How the memory moves along any run: the history grows, no replica goes
back, no value is locked into the global pointer twice. -/
structure Evolve (N : Nat) (m m' : Mem) : Prop where
  grows : m.installed <+: m'.installed
  forward : ∀ i < N, m'.rank (m.val i) ≤ m'.rank (m'.val i)
  issuer : ∀ v u, m.issuer v = some u → m'.issuer v = some u
  relock : ∀ v ∈ m.installed, m'.globalPtr = withLock v → m.globalPtr = withLock v

section Ranks

variable {N : Nat} {m m' m'' : Mem} {v w : Ptr}

theorem Evolve.rank_eq (h : Evolve N m m') (hv : v ∈ m.installed) : m'.rank v = m.rank v := by
  obtain ⟨l, hl⟩ := h.grows
  rw [Mem.rank, Mem.rank, ← hl, List.idxOf_append_of_mem hv]

theorem Evolve.mem (h : Evolve N m m') (hv : v ∈ m.installed) :
    v ∈ m'.installed := h.grows.subset hv

theorem Inv.newest_mem (h : Inv N m) : m.newest ∈ m.installed :=
  List.mem_of_getLast? h.last

theorem Inv.rank_le_newest (h : Inv N m) (hv : v ∈ m.installed) : m.rank v ≤ m.rank m.newest := by
  obtain ⟨l, hl⟩ := List.getLast?_eq_some_iff.mp h.last
  have hn : m.newest ∉ l := by
    have hd := h.nodup
    rw [hl] at hd
    exact fun hmem => (List.disjoint_of_nodup_append hd) hmem (List.mem_singleton_self _)
  have hlast : m.rank m.newest = l.length := by
    rw [Mem.rank, hl, List.idxOf_append_of_notMem hn, List.idxOf_cons_self]
    omega
  have hlt : m.rank v < m.installed.length := List.idxOf_lt_length_of_mem hv
  rw [hl, List.length_append, List.length_singleton] at hlt
  omega

theorem rank_inj (hv : v ∈ m.installed) (h : m.rank v = m.rank w) : v = w :=
  (List.idxOf_inj hv).mp h

theorem Evolve.refl (m : Mem) : Evolve N m m where
  grows := List.prefix_refl _
  forward _ _ := Nat.le_refl _
  issuer _ _ h := h
  relock _ _ h := h

theorem Evolve.trans (h : Inv N m) (h' : Inv N m') (h₁ : Evolve N m m')
    (h₂ : Evolve N m' m'') : Evolve N m m'' where
  grows := h₁.grows.trans h₂.grows
  forward := by
    intro i hi
    have h1 := h₁.forward i hi
    have h2 := h₂.forward i hi
    rw [← h₂.rank_eq (h₁.mem (h.held i hi)), ← h₂.rank_eq (h'.held i hi)] at h1
    exact Nat.le_trans h1 h2
  issuer v u hv := h₂.issuer v u (h₁.issuer v u hv)
  relock v hv hg := h₁.relock v hv (h₂.relock v (h₁.mem hv) hg)

theorem Evolve.reached_at (h : Inv N m) (he : Evolve N m m') (hv : v ∈ m.installed)
    {i : Nat} (hi : i < N) (hr : m.rank v ≤ m.rank (m.val i)) :
    m'.rank v ≤ m'.rank (m'.val i) := by
  rw [he.rank_eq hv]
  rw [← he.rank_eq (h.held i hi)] at hr
  exact Nat.le_trans hr (he.forward i hi)

theorem Evolve.reached (h : Inv N m) (he : Evolve N m m') (hv : v ∈ m.installed)
    (hr : Reached N m v) : Reached N m' v :=
  fun i hi => he.reached_at h hv hi (hr i hi)

theorem Evolve.replaced (h : Inv N m) (h' : Inv N m') (he : Evolve N m m')
    (hv : v ∈ m.installed) (hn : m.newest ≠ v) : m'.newest ≠ v := by
  intro hv'
  have h1 := h.rank_le_newest hv
  have h2 := h'.rank_le_newest (he.mem h.newest_mem)
  rw [hv', he.rank_eq hv, he.rank_eq h.newest_mem] at h2
  exact hn (rank_inj h.newest_mem (Nat.le_antisymm h2 h1))

theorem Inv.reached_of_settled (h : Inv N m) (hg : hasLock m.globalPtr = false)
    (hv : v ∈ m.installed) : Reached N m v := by
  intro i hi
  rw [h.settled hg i hi]
  exact h.rank_le_newest hv

end Ranks

/-! ## The four updates -/

section Updates

variable {N : Nat} {m : Mem}

theorem unlocked_ne_withLock {p v : Ptr} (h : hasLock p = false) : p ≠ withLock v := by
  intro hp
  rw [hp, hasLock_withLock] at h
  cases h

/-- Clearing the lock bit of the global pointer, by somebody who has seen every
replica at the value. -/
theorem unlock_step {A : Ptr} (h : Inv N m) (hg : m.globalPtr = withLock A)
    (hA : A ∈ m.installed) (hr : Reached N m A) :
    Inv N { m with globalPtr := A } ∧ Evolve N m { m with globalPtr := A } ∧
      (Tight N m → Tight N { m with globalPtr := A }) := by
  have hAu := h.unlocked A hA
  have hnew : m.newest = A := by rw [Mem.newest, hg, clearLock_withLock hAu]
  have hnew' : ({ m with globalPtr := A } : Mem).newest = m.newest := by
    rw [hnew, Mem.newest]
    exact clearLock_of_unlocked hAu
  refine ⟨⟨h.nodup, h.unlocked, h.issued, ?_, h.held, h.sorted, ?_⟩, ⟨?_, ?_, ?_, ?_⟩, ?_⟩
  · rw [hnew']; exact h.last
  · intro _ i hi
    rw [hnew']
    have h1 := h.rank_le_newest (h.held i hi)
    have h2 := hr i hi
    rw [← hnew] at h2
    exact rank_inj (h.held i hi) (Nat.le_antisymm h1 h2)
  · exact List.prefix_refl _
  · exact fun i _ => Nat.le_refl _
  · exact fun _ _ hv => hv
  · intro v _ hv
    exact absurd hv (unlocked_ne_withLock hAu)
  · intro ht
    exact ⟨fun v hv hne => ht.past v hv (hnew' ▸ hne), ht.open_⟩

/-- Installing a value that was not used before. For `Tight` the value it
replaces has to be unlocked. -/
theorem install_step {old new : Ptr} {t : Nat} (h : Inv N m) (hg : m.globalPtr = old)
    (hnew : hasLock new = false) (hfresh : new ∉ m.installed)
    (hiss : m.issuer new = some t) :
    let m' := { m with globalPtr := withLock new, installed := m.installed ++ [new] }
    Inv N m' ∧ Evolve N m m' ∧ (hasLock old = false → Tight N m → Tight N m') := by
  intro m'
  have hn' : m'.newest = new := clearLock_withLock hnew
  have hrank : ∀ v ∈ m.installed, m'.rank v = m.rank v := by
    intro v hv
    exact List.idxOf_append_of_mem hv
  have hlift : ∀ v ∈ m.installed, Reached N m v → Reached N m' v := by
    intro v hv hr i hi
    rw [hrank v hv, show m'.val i = m.val i from rfl, hrank _ (h.held i hi)]
    exact hr i hi
  refine ⟨⟨?_, ?_, ?_, ?_, ?_, ?_, ?_⟩, ⟨?_, ?_, ?_, ?_⟩, ?_⟩
  · refine List.nodup_append.mpr ⟨h.nodup, List.nodup_singleton _, ?_⟩
    intro a ha b hb hab
    rw [List.mem_singleton.mp hb] at hab
    exact hfresh (hab ▸ ha)
  · intro v hv
    rcases List.mem_append.mp hv with hv | hv
    · exact h.unlocked v hv
    · rw [List.mem_singleton.mp hv]; exact hnew
  · intro v hv
    rcases List.mem_append.mp hv with hv | hv
    · exact h.issued v hv
    · rw [List.mem_singleton.mp hv]
      show m.issuer new ≠ none
      rw [hiss]
      simp
  · rw [hn']
    exact List.getLast?_concat ..
  · intro i hi
    exact List.mem_append_left _ (h.held i hi)
  · intro i j hij hj
    show m'.rank (m.val j) ≤ m'.rank (m.val i)
    rw [hrank _ (h.held j hj), hrank _ (h.held i (by omega))]
    exact h.sorted i j hij hj
  · intro hl
    exact absurd rfl (unlocked_ne_withLock hl)
  · exact List.prefix_append _ _
  · exact fun i _ => Nat.le_refl _
  · exact fun _ _ hv => hv
  · intro v hv hgv
    have hv' := congrArg clearLock hgv
    rw [show clearLock m'.globalPtr = new from hn', clearLock_withLock (h.unlocked v hv)] at hv'
    exact absurd (hv' ▸ hv) hfresh
  · intro hold ht
    refine ⟨?_, ?_⟩
    · intro v hv hne
      rw [hn'] at hne
      have hv : v ∈ m.installed := by
        rcases List.mem_append.mp hv with hv | hv
        · exact hv
        · exact absurd (List.mem_singleton.mp hv) hne
      exact hlift v hv (h.reached_of_settled (hg ▸ hold) hv)
    · intro i hi ho
      exact hlift _ (h.held i hi) (ht.open_ i hi ho)

theorem help_step {A : Ptr} {i : Nat} (h : Inv N m) (hA : A ∈ m.installed) (hi : i < N)
    (hlt : m.rank (m.val i) < m.rank A) (hlow : ∀ j < i, m.rank A ≤ m.rank (m.val j)) :
    let m' := { m with replicaPtrs := update m.replicaPtrs i (withLock A) }
    Inv N m' ∧ Evolve N m m' ∧ (Tight N m → Tight N m') := by
  intro m'
  have hAu := h.unlocked A hA
  have hself : m'.val i = A := by
    show clearLock (update m.replicaPtrs i (withLock A) i) = A
    rw [update_self, clearLock_withLock hAu]
  have hother : ∀ j, j ≠ i → m'.val j = m.val j := by
    intro j hj
    show clearLock (update m.replicaPtrs i (withLock A) j) = m.val j
    rw [update_of_ne hj]
    rfl
  have hfw : ∀ j < N, m.rank (m.val j) ≤ m.rank (m'.val j) := by
    intro j hj
    by_cases hji : j = i
    · rw [hji, hself]; omega
    · rw [hother j hji]
  have hlift : ∀ v, Reached N m v → Reached N m' v := by
    intro v hr j hj
    exact Nat.le_trans (hr j hj) (hfw j hj)
  refine ⟨⟨h.nodup, h.unlocked, h.issued, h.last, ?_, ?_, ?_⟩, ⟨?_, hfw, ?_, ?_⟩, ?_⟩
  · intro j hj
    by_cases hji : j = i
    · rw [hji, hself]; exact hA
    · rw [hother j hji]; exact h.held j hj
  · intro a b hab hb
    show m.rank (m'.val b) ≤ m.rank (m'.val a)
    -- the one moved replica against those before it and those behind it
    by_cases hbi : b = i
    · subst hbi
      rw [hself]
      by_cases hai : a = b
      · rw [hai, hself]
      · rw [hother a hai]
        exact hlow a (by omega)
    · rw [hother b hbi]
      exact Nat.le_trans (h.sorted a b hab hb) (hfw a (by omega))
  · intro hg
    have hs := h.settled hg i hi
    rw [hs] at hlt
    exact absurd (h.rank_le_newest hA) (by omega)
  · exact List.prefix_refl _
  · exact fun _ _ hv => hv
  · exact fun _ _ hv => hv
  · intro ht
    refine ⟨fun v hv hne => hlift v (ht.past v hv hne), ?_⟩
    intro j hj ho
    by_cases hji : j = i
    · rw [hji, show m'.replicaPtrs i = withLock A from update_self ..,
        hasLock_withLock] at ho
      cases ho
    · rw [hother j hji]
      refine hlift _ (ht.open_ j hj ?_)
      rwa [show m'.replicaPtrs j = m.replicaPtrs j from update_of_ne hji ..] at ho

theorem clear_step {i : Nat} (h : Inv N m) : let m' := { m with
      replicaPtrs := update m.replicaPtrs i (clearLock (m.replicaPtrs i)) }
    Inv N m' ∧ Evolve N m m' ∧ (Reached N m (m.val i) → Tight N m → Tight N m') := by
  intro m'
  have hval : ∀ j, m'.val j = m.val j := by
    intro j
    show clearLock (update m.replicaPtrs i (clearLock (m.replicaPtrs i)) j) = m.val j
    rw [update_apply]
    split
    · next hji =>
      rw [hji, clearLock_of_unlocked (hasLock_clearLock _)]
      rfl
    · rfl
  have hreach : ∀ v, Reached N m v → Reached N m' v := by
    intro v hr j hj
    rw [hval j]
    exact hr j hj
  refine ⟨⟨h.nodup, h.unlocked, h.issued, h.last, ?_, ?_, ?_⟩, ⟨?_, ?_, ?_, ?_⟩, ?_⟩
  · intro j hj
    rw [hval j]; exact h.held j hj
  · intro a b hab hb
    rw [hval a, hval b]; exact h.sorted a b hab hb
  · intro hg j hj
    rw [hval j]; exact h.settled hg j hj
  · exact List.prefix_refl _
  · intro j _
    rw [hval j]
  · exact fun _ _ hv => hv
  · exact fun _ _ hv => hv
  · intro hr ht
    refine ⟨fun v hv hne => hreach v (ht.past v hv hne), ?_⟩
    intro j hj ho
    rw [hval j]
    by_cases hji : j = i
    · rw [hji]; exact hreach _ hr
    · refine hreach _ (ht.open_ j hj ?_)
      rwa [show m'.replicaPtrs j = m.replicaPtrs j from update_of_ne hji ..] at ho

end Updates

end ShmPcc.HelpUpdate
