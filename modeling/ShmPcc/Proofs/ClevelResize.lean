import ShmPcc.Proofs.ClevelCalls

/-!
# A round of the rehasher, run alone

The rehasher moves the items of one bucket of the bottom level to the top
level. If one of them finds no room there, it appends a level and starts the
bucket again, and then there is room: nothing is in the new top level but what
this bucket put there, and the `j`-th item of the bucket lands in a slot with
index at most `j`. The map is the same before and after.
-/

namespace ShmPcc.ClevelHash

open Function Prog

variable {K T : Type} {H : Table K} {m : Mem K T} {abs : K → Option T}

theorem countLevels_runs {mt : Meta} (htop : mt.firstLevel < m.levels) : ∀ fuel li n,
    li + fuel = mt.firstLevel + 1 → 0 < fuel →
    (countLevels mt fuel li n).runs (fun r m' => m' = m ∧ r = n + (mt.firstLevel - li)) m := by
  intro fuel
  induction fuel with
  | zero =>
    intro li n _ h0
    omega
  | succ fuel ih =>
    intro li n hf _
    rw [countLevels]
    split
    · next hli =>
      refine ⟨rfl, ?_⟩
      omega
    · next hli =>
      rw [runs_bind, runs_loadUp, if_pos (by omega)]
      refine runs_mono ?_ (ih (li + 1) (n + 1) (by omega) (by omega))
      rintro r m' ⟨hm, rfl⟩
      exact ⟨hm, by omega⟩

/-- The memory after the rehasher moved the word of `src` to `dst`. -/
def Mem.moved (m : Mem K T) (src dst : Slot) : Mem K T :=
  { m with
    slots := update (update m.slots dst (m.slots src)) src 0
    cursor := src.slot + 1
    hold := .none }

theorem Mem.moved_slots {src dst q : Slot} (h : (m.moved src dst).slots q ≠ 0) :
    q ≠ src ∧ (q = dst ∨ m.slots q ≠ 0) := by
  simp only [Mem.moved] at h
  rw [update_apply] at h
  split at h
  · exact absurd rfl h
  · next hs =>
    refine ⟨hs, ?_⟩
    by_cases hd : q = dst
    · exact .inl hd
    · rw [update_of_ne hd] at h
      exact .inr h

theorem moveTo_runs {src dst : Slot} {Q : Bool → Mem K T → Prop} :
    (moveTo (m.slots src) src dst).runs Q m ↔
      if addr (m.slots dst) = 0 then Q true (m.moved src dst) else Q false m := by
  rw [moveTo, runs_bind, runs_loadSlot]
  split
  · simp only [runs_bind]
    rw [runs_casSlot rfl]
    exact Iff.rfl
  · exact Iff.rfl

/-- The slots of a bucket are taken in order, so the ones before the chosen
index are in use. -/
structure MovedTo (H : Table K) (m : Mem K T) (src : Slot) (tl b1 b2 j : Nat) (m' : Mem K T) :
    Prop where
  dst : ∃ b i, m' = m.moved src ⟨tl, b, i⟩ ∧ (b = b1 ∨ b = b2) ∧ m.slots ⟨tl, b, i⟩ = 0 ∧
    i < assocNum ∧ ∀ i', j ≤ i' → i' < i → m.slots ⟨tl, b1, i'⟩ ≠ 0

theorem moveUp_runs (hw : WellPlaced H m) {src : Slot} {tl b1 b2 : Nat} : ∀ n j,
    j + n = assocNum → (moveUp (m.slots src) src tl b1 b2 n j).runs (fun b m' =>
      b = true ∧ MovedTo H m src tl b1 b2 j m' ∨
        b = false ∧ m' = m ∧ ∀ i, j ≤ i → i < assocNum → m.slots ⟨tl, b1, i⟩ ≠ 0) m := by
  intro n
  induction n with
  | zero =>
    intro j hj
    exact .inr ⟨rfl, rfl, fun i hi hi' => absurd hi' (by omega)⟩
  | succ n ih =>
    intro j hj
    rw [moveUp, runs_bind, moveTo_runs]
    split
    · next ha =>
      refine .inl ⟨rfl, b1, j, rfl, .inl rfl, hw.addr_eq_zero.mp ha, by omega, ?_⟩
      exact fun i' h1 h2 => absurd h2 (by omega)
    · next ha =>
      rw [if_neg Bool.false_ne_true, runs_bind, moveTo_runs]
      split
      · next ha' =>
        refine .inl ⟨rfl, b2, j, rfl, .inr rfl, hw.addr_eq_zero.mp ha', by omega, ?_⟩
        exact fun i' h1 h2 => absurd h2 (by omega)
      · have hj0 : m.slots ⟨tl, b1, j⟩ ≠ 0 := fun hz => ha (by rw [hz, addr_zero])
        refine runs_mono ?_ (ih (j + 1) (by omega))
        rintro b m' (⟨hb, b', i, hm, hbs, hz, hi, hbefore⟩ | ⟨hb, hm, hfull⟩)
        · refine .inl ⟨hb, b', i, hm, hbs, hz, hi, fun i' h1 h2 => ?_⟩
          rcases Nat.eq_or_lt_of_le h1 with rfl | h1
          · exact hj0
          · exact hbefore i' h1 h2
        · refine .inr ⟨hb, hm, fun i h1 h2 => ?_⟩
          rcases Nat.eq_or_lt_of_le h1 with rfl | h1
          · exact hj0
          · exact hfull i h1 h2

/-- What a bucket in progress leaves alone. -/
structure SameChain (m m' : Mem K T) : Prop where
  ptr : m'.metaPtr = m.metaPtr
  cur : m'.cur = m.cur
  levels : m'.levels = m.levels
  bucket : m'.expandBucket = m.expandBucket

theorem SameChain.trans {m₁ m₂ m₃ : Mem K T} (h : SameChain m₁ m₂) (h' : SameChain m₂ m₃) :
    SameChain m₁ m₃ :=
  ⟨h'.ptr.trans h.ptr, h'.cur.trans h.cur, h'.levels.trans h.levels, h'.bucket.trans h.bucket⟩

/-- In the top level only slots with index below `c` are in use. -/
def Mem.TopBelow (m : Mem K T) (c : Nat) : Prop :=
  ∀ q, q.level = m.cur.firstLevel → m.slots q ≠ 0 → q.slot < c

/-- The slots of the rehasher's bucket before slot `j` are empty. -/
def Mem.CleanTo (m : Mem K T) (j : Nat) : Prop :=
  ∀ q, q.level = m.cur.lastLevel → q.bucket = m.expandBucket → q.slot < j → m.slots q = 0

theorem dropLoop_runs (hc : m.cur.lastLevel < m.cur.firstLevel)
    (htop : m.cur.firstLevel < m.levels) (n : Nat) :
    (dropLoop m.cur.lastLevel (n + 1) m.metaPtr m.cur).runs (fun _ m' => m' = m.dropped) m := by
  rw [dropLoop, runs_bind]
  refine runs_mono ?_ (countLevels_runs htop m.cur.span m.cur.lastLevel 0
    (by rw [Meta.span]; omega) (by rw [Meta.span]; omega))
  rintro r m' ⟨rfl, rfl⟩
  rw [runs_bind, runs_loadUp, if_pos (by omega), Nat.zero_add]
  simp only [runs_bind, casMeta, runs_rmw, if_true, beq_self_eq_true]
  rfl

theorem Seq.finish_runs (h : Seq H m abs) (hp : 2 ≤ H.hashpower) (hr : 1 ≤ H.retries)
    (hres : m.cur.isResizing = true) (hclean : m.CleanTo assocNum) :
    (do
      Prog.write .expandBucket fun m' => { m' with expandBucket := m.expandBucket + 1, cursor := 0 }
      if m.expandBucket + 1 = H.capacity m.cur.lastLevel then
        dropLoop m.cur.lastLevel H.retries m.metaPtr m.cur
      else pure () : Code K T Unit).runs (fun _ m' => Seq H m' abs) m := by
  have hempty : ∀ q, q.level = m.cur.lastLevel → q.bucket = m.expandBucket → m.slots q = 0 := by
    intro q hl hb
    by_contra hne
    obtain ⟨kv, _, _, hslot⟩ := (h.placed q hne).entry
    exact hne (hclean q hl hb hslot.2)
  split
  · next hlast =>
    obtain ⟨n, hn⟩ := Nat.exists_eq_add_of_le' hr
    have htop := h.top
    rw [hn]
    refine runs_mono ?_ (dropLoop_runs (m := { m with
      expandBucket := m.expandBucket + 1, cursor := 0 }) h.chain
      (show m.cur.firstLevel < m.levels by omega) n)
    rintro _ m' rfl
    exact (h.dropped hp hempty hres hlast).book 0 m.hold m.owner m.ops m.calls
  · next hlast =>
    have hb := h.bucket
    exact (h.passBucket hempty hres (by omega)).book 0 m.hold m.owner m.ops m.calls

variable [DecidableEq K]

theorem Seq.moved (h : Seq H m abs) {src : Slot} {kv : K × T} {i : Nat} {b : Nat}
    (hsrc : m.entryAt src = some kv) (hb : H.IsBucket kv.1 m.cur.firstLevel b)
    (hi : i < assocNum) (hz : m.slots ⟨m.cur.firstLevel, b, i⟩ = 0) :
    Seq H (m.moved src ⟨m.cur.firstLevel, b, i⟩) abs := by
  obtain ⟨ha, he⟩ := entryAt_eq_some.mp hsrc
  obtain ⟨hpar, _, hne⟩ := h.placed.of_entryAt hsrc
  exact Seq.book (h.move hne hz ⟨ha, kv, he, hpar, hb, hi⟩ ⟨h.chain, Nat.le_refl _⟩) _ _ _ _ _

theorem Seq.rehashBucket_runs : ∀ n j (m : Mem K T), Seq H m abs → j + n = assocNum → m.CleanTo j →
    (rehashBucket H m.cur.lastLevel m.cur.firstLevel m.expandBucket n j).runs (fun b m' =>
      Seq H m' abs ∧ SameChain m m' ∧ (b = true → m'.CleanTo assocNum) ∧
        (m.TopBelow j → b = true)) m := by
  intro n
  induction n with
  | zero =>
    intro j m h hj hclean
    rw [show j = assocNum from hj] at hclean
    exact ⟨h, ⟨rfl, rfl, rfl, rfl⟩, fun _ => hclean, fun _ => rfl⟩
  | succ n ih =>
    intro j m h hj hclean
    rw [rehashBucket, runs_bind, runs_rmw]
    generalize hsrcd : (⟨m.cur.lastLevel, m.expandBucket, j⟩ : Slot) = src
    -- the slots before `j` are clean, and now slot `j` is
    have hnext : ∀ m₁ : Mem K T, SameChain m m₁ → (∀ q, m₁.slots q ≠ 0 → q.level =
        m.cur.lastLevel → m.slots q ≠ 0) → m₁.slots src = 0 → m₁.CleanTo (j + 1) := by
      intro m₁ hs hsub hz q hl hb hq
      rw [hs.cur] at hl
      rw [hs.bucket] at hb
      by_cases hj' : q.slot = j
      · obtain rfl : q = src := by
          rw [← hsrcd, ← hl, ← hb, ← hj']
        exact hz
      · by_contra hne
        exact hsub q hne hl (hclean q hl hb (by omega))
    split
    · next ha =>
      have hz := h.placed.addr_eq_zero.mp ha
      have h₁ := h.book (j + 1) m.hold m.owner m.ops m.calls
      refine runs_mono ?_ (ih (j + 1) _ h₁ (by omega)
        (hnext _ ⟨rfl, rfl, rfl, rfl⟩ (fun q hq _ => hq) hz))
      rintro b m' ⟨hseq, hs, hc, ht⟩
      refine ⟨hseq, ⟨hs.ptr, hs.cur, hs.levels, hs.bucket⟩, hc, fun htop => ht ?_⟩
      exact fun q hl hq => Nat.lt_succ_of_lt (htop q hl hq)
    · next ha =>
      have hne : m.slots src ≠ 0 := fun hz => ha (by rw [hz, addr_zero])
      obtain ⟨kv, he, _⟩ := (h.placed src hne).entry
      have hat : m.entryAt src = some kv := entryAt_eq_some.mpr ⟨ha, he⟩
      have h₁ := h.book m.cursor (.held (m.slots src)) m.owner m.ops m.calls
      rw [runs_bind]
      refine (runs_loadEntry (m := { m with hold := .held (m.slots src) }) he).mpr ?_
      rw [runs_bind]
      refine runs_mono ?_ (moveUp_runs h₁.placed assocNum 0 (Nat.zero_add _))
      rintro b m' (⟨rfl, b', i, hm, hb, hz, hi, hbefore⟩ | ⟨rfl, rfl, hfull⟩)
      · replace hm : m' = m.moved src ⟨m.cur.firstLevel, b', i⟩ := hm
        subst hm
        have hc := h.chain
        have hs : SameChain m (m.moved src ⟨m.cur.firstLevel, b', i⟩) := ⟨rfl, rfl, rfl, rfl⟩
        refine runs_mono ?_ (ih (j + 1) _ (h.moved hat hb hi hz) (by omega)
          (hnext _ hs ?_ (update_self ..)))
        · rintro b m'' ⟨hseq, hs', hc, ht⟩
          refine ⟨hseq, hs.trans hs', hc, fun htop => ht ?_⟩
          -- index `j` of the first bucket was free, so nothing above it was taken
          intro q hl hq
          rcases (Mem.moved_slots hq).2 with rfl | hq
          · dsimp only
            by_contra hlt
            have hfree := hbefore j (Nat.zero_le j) (by omega)
            exact absurd (htop ⟨m.cur.firstLevel, _, j⟩ rfl hfree) (Nat.lt_irrefl j)
          · exact Nat.lt_succ_of_lt (htop q hl hq)
        · intro q hq hl
          rcases (Mem.moved_slots hq).2 with rfl | hq
          · dsimp only at hl
            omega
          · exact hq
      · refine ⟨h₁, ⟨rfl, rfl, rfl, rfl⟩, fun hb => absurd hb Bool.false_ne_true, ?_⟩
        intro htop
        have hfree := hfull j (Nat.zero_le j) (by omega)
        exact absurd (htop ⟨m.cur.firstLevel, _, j⟩ rfl hfree) (Nat.lt_irrefl j)

/-- A round that starts with nothing in the top level is the last one. -/
theorem Seq.rehashLoop_last (h : Seq H m abs) (hp : 2 ≤ H.hashpower) (hr : 1 ≤ H.retries)
    (hres : m.cur.isResizing = true) (htop : m.TopBelow 0) (n : Nat) :
    (rehashLoop H m.expandBucket (n + 1)).runs (fun _ m' => Seq H m' abs) m := by
  have h₁ := h.book 0 .none m.owner m.ops m.calls
  rw [rehashLoop, runs_bind, runs_rmw, runs_bind]
  refine runs_mono ?_ (Seq.rehashBucket_runs assocNum 0 _ h₁ (Nat.zero_add _)
    fun q _ _ hq => absurd hq (Nat.not_lt_zero _))
  rintro b m₂ ⟨h₂, hs, hclean, hb⟩
  have hptr : m₂.metaPtr = m.metaPtr := hs.ptr
  have hcur : m₂.cur = m.cur := hs.cur
  have hbkt : m₂.expandBucket = m.expandBucket := hs.bucket
  rw [if_pos (hb htop), ← hptr, ← hbkt]
  rw [← hcur]
  exact h₂.finish_runs hp hr (by rw [hcur]; exact hres) (hclean (hb htop))

theorem Seq.rehashLoop_runs (h : Seq H m abs) (hp : 2 ≤ H.hashpower) (hr : 1 ≤ H.retries)
    (hres : m.cur.isResizing = true) (n : Nat) :
    (rehashLoop H m.expandBucket (n + 2)).runs (fun _ m' => Seq H m' abs) m := by
  have h₁ := h.book 0 .none m.owner m.ops m.calls
  rw [rehashLoop, runs_bind, runs_rmw, runs_bind]
  refine runs_mono ?_ (Seq.rehashBucket_runs assocNum 0 _ h₁ (Nat.zero_add _)
    fun q _ _ hq => absurd hq (Nat.not_lt_zero _))
  rintro b m₂ ⟨h₂, hs, hclean, _⟩
  have hptr : m₂.metaPtr = m.metaPtr := hs.ptr
  have hcur : m₂.cur = m.cur := hs.cur
  have hbkt : m₂.expandBucket = m.expandBucket := hs.bucket
  rw [← hptr, ← hbkt]
  rw [← hcur]
  split
  · next hb => exact h₂.finish_runs hp hr (by rw [hcur]; exact hres) (hclean hb)
  · rw [runs_bind]
    refine runs_mono ?_ (h₂.expand_runs hp hr)
    rintro _ m₃ rfl
    refine h₂.grown.rehashLoop_last hp hr (by rw [Mem.grown_cur]) ?_ n
    -- nothing is in a level that was just appended
    intro q hl hq
    have hlive := (h₂.live q hq).2
    rw [Mem.grown_cur] at hl
    dsimp only at hl
    omega

theorem Seq.resize_runs (h : Seq H m abs) (hp : 2 ≤ H.hashpower) (hr : 2 ≤ H.retries) :
    (resize H).runs (fun _ m' => Seq H m' abs) m := by
  obtain ⟨n, hn⟩ := Nat.exists_eq_add_of_le' hr
  have hc := h.chain
  have htop := h.top
  rw [resize, runs_bind, runs_loadMeta, runs_bind]
  dsimp only
  refine runs_mono ?_ (countLevels_runs (by omega) m.cur.span m.cur.lastLevel 1
    (by rw [Meta.span]; omega) (by rw [Meta.span]; omega))
  rintro r m' ⟨rfl, rfl⟩
  split
  · exact h
  · next hne =>
    rw [runs_bind, runs_read, hn]
    exact h.rehashLoop_runs hp (by omega) (h.flag.mpr (by omega)) n

end ShmPcc.ClevelHash
