import ShmPcc.Lib.Links
import ShmPcc.Ref.CxlAlloc

/-!
# The invariant of the block allocator

Every block of a page in use is at one place. The two lists of a page hold exactly
its blocks at `free` and at `localFree`, the list of a segment holds exactly its
blocks at `threadFree`, and `used` counts the blocks that are handed out, on their
way, or on the list of the segment. So a page whose `used` is 0 has no block
anywhere else than on its own two lists, and a segment without pages in use has no
blocks out at all.

`Move` lists what the steps of a thread do to the memory, and what the thread knows
when it does it. The operations themselves come in the next module.
-/

namespace ShmPcc.CxlAlloc

open Function

/-! ## Blocks of a page -/

/-- The blocks `used` counts. -/
def Place.counted : Place → Bool
  | .threadFree | .held _ | .out _ => true
  | _ => false

def blocksOf (blockSize q : Nat) : Finset Nat :=
  (Finset.range (pageSize / blockSize)).image (q * pageSize + · * blockSize)

variable {bs k : Nat}

theorem blockSize_pos (hk : k < pageSize / bs) : 0 < bs :=
  (Nat.div_pos_iff.mp (Nat.zero_lt_of_lt hk)).1

theorem block_lt (hk : k < pageSize / bs) : k * bs < pageSize := by
  have hbs := blockSize_pos hk
  calc k * bs < k * bs + bs := by omega
    _ = (k + 1) * bs := by rw [Nat.succ_mul]
    _ ≤ pageSize / bs * bs := Nat.mul_le_mul_right _ hk
    _ ≤ pageSize := Nat.div_mul_le_self ..

variable {q : Nat}

theorem block_mod (hk : k < pageSize / bs) : (q * pageSize + k * bs) % pageSize = k * bs := by
  rw [Nat.mul_comm, Nat.mul_add_mod, Nat.mod_eq_of_lt (block_lt hk)]

theorem pageOf_block (hk : k < pageSize / bs) : pageOf (q * pageSize + k * bs) = q := by
  have hpos : 0 < pageSize := by decide
  rw [pageOf, Nat.mul_comm, Nat.mul_add_div hpos, Nat.div_eq_of_lt (block_lt hk), Nat.add_zero]

theorem isBlock_block (hk : k < pageSize / bs) : isBlock bs (q * pageSize + k * bs) = true := by
  simp only [isBlock, block_mod hk, Nat.mul_mod_left, Nat.mul_div_cancel _ (blockSize_pos hk), hk,
    and_self, decide_true]

theorem isBlock_iff {b : Nat} :
    (pageOf b = q ∧ isBlock bs b = true) ↔ ∃ k, k < pageSize / bs ∧ b = q * pageSize + k * bs := by
  constructor
  · intro h
    obtain ⟨rfl, hb⟩ := h
    simp only [isBlock, decide_eq_true_eq] at hb
    refine ⟨_, hb.2, ?_⟩
    have hdiv := Nat.div_add_mod (b % pageSize) bs
    have hpage := Nat.div_add_mod b pageSize
    rw [hb.1, Nat.add_zero, Nat.mul_comm] at hdiv
    rw [hdiv, pageOf, Nat.mul_comm]
    exact hpage.symm
  · intro h
    obtain ⟨k, hk, rfl⟩ := h
    exact ⟨pageOf_block hk, isBlock_block hk⟩

theorem mem_blocksOf {b : Nat} : b ∈ blocksOf bs q ↔ pageOf b = q ∧ isBlock bs b = true := by
  rw [isBlock_iff, blocksOf, Finset.mem_image]
  simp only [Finset.mem_range, eq_comm]

/-- The value of `used` that belongs to the places of the blocks. -/
def usedCount (place : Nat → Place) (bs q : Nat) : Nat :=
  ((blocksOf bs q).filter fun b => (place b).counted = true).card

variable {place : Nat → Place}

theorem usedCount_congr {place' : Nat → Place}
    (h : ∀ b, pageOf b = q → (place' b).counted = (place b).counted) :
    usedCount place' bs q = usedCount place bs q := by
  refine congrArg Finset.card (Finset.filter_congr fun b hb => ?_)
  rw [h b (mem_blocksOf.mp hb).1]

theorem usedCount_succ {place' : Nat → Place} {b : Nat} (hb : b ∈ blocksOf bs q)
    (hold : (place b).counted = false) (hnew : (place' b).counted = true)
    (hrest : ∀ c, c ≠ b → (place' c).counted = (place c).counted) :
    usedCount place' bs q = usedCount place bs q + 1 := by
  have hset : (blocksOf bs q).filter (fun c => (place' c).counted = true) =
      insert b ((blocksOf bs q).filter fun c => (place c).counted = true) := by
    ext c
    rw [Finset.mem_insert, Finset.mem_filter, Finset.mem_filter]
    by_cases hc : c = b
    · rw [hc]
      simp only [hb, hnew, and_self, true_or]
    · rw [hrest c hc]
      simp only [hc, false_or]
  rw [usedCount, hset, Finset.card_insert_of_notMem, usedCount]
  rw [Finset.mem_filter, hold]
  simp

theorem counted_of_usedCount_zero {b : Nat} (h : usedCount place bs q = 0)
    (hb : pageOf b = q ∧ isBlock bs b = true) : (place b).counted = false := by
  rw [usedCount, Finset.card_eq_zero, Finset.filter_eq_empty_iff] at h
  have := h (mem_blocksOf.mpr hb)
  simpa using this

/-! ## The invariant -/

/-- Page `q` is in queue `i` of thread `t`. -/
structure PageOk (m : Mem) (t i q : Nat) : Prop where
  owner : (m.sas (segmentOf q)).threadId = t
  inner : q % pagesPerSegment ≠ 0
  size : (m.page q).blockSize = queueBlockSize i
  placed : ∀ b, pageOf b = q → (m.place b ≠ .none ↔ isBlock (m.page q).blockSize b = true)
  free : Linked m.next 0 (m.page q).free fun b => pageOf b = q ∧ m.place b = .free
  localFree : Linked m.next 0 (m.page q).localFree fun b => pageOf b = q ∧ m.place b = .localFree
  used : (m.page q).used = usedCount m.place (m.page q).blockSize q
  special : ∀ b sp, pageOf b = q → m.place b = .out sp → sp = decide (i < 2)

/-- The pages of segment `n` that are in use. -/
def pagesInUse (m : Mem) (n : Nat) : Finset Nat :=
  (Finset.range pagesPerSegment).filter fun j => m.page (n * pagesPerSegment + j) ≠ .zero

structure Inv (m : Mem) : Prop where
  queued : ∀ t i q, q ∈ (m.tls t).pages i → t ≠ 0 ∧ i < 66 ∧ PageOk m t i q
  queue_nodup : ∀ t i, ((m.tls t).pages i).Nodup
  queue_unique : ∀ t i t' i' q, q ∈ (m.tls t).pages i → q ∈ (m.tls t').pages i' → t = t' ∧ i = i'
  freePage : ∀ t q, q ∈ (m.tls t).freePage → t ≠ 0 ∧ (m.sas (segmentOf q)).threadId = t ∧
    q % pagesPerSegment ≠ 0 ∧ m.page q = .zero
  free_nodup : ∀ t, (m.tls t).freePage.Nodup
  /-- A page whose metadata are not zero is in a queue. -/
  inUse : ∀ q, m.page q = .zero ∨ ∃ t i, q ∈ (m.tls t).pages i
  unplaced : ∀ b, m.page (pageOf b) = .zero → m.place b = .none
  threadId : ∀ n, (m.segment n).threadId = (m.sas n).threadId
  normal : ∀ n, (m.sas n).info.state = .normal
  threadFree : ∀ n, (m.sas n).threadId ≠ 0 → Linked m.next 0 (m.sas n).info.threadFree
    fun b => segmentOf (pageOf b) = n ∧ m.place b = .threadFree
  segmentUsed : ∀ n, (m.sas n).threadId ≠ 0 → (m.segment n).used = (pagesInUse m n).card

variable {m m' : Mem} {u w t i q n b : Nat}

theorem queueBlockSize_ge (i : Nat) : 16 ≤ queueBlockSize i := by
  rw [queueBlockSize]
  split
  · omega
  · split
    · omega
    · omega

theorem queueBlockSize_le (hi : i < 66) : queueBlockSize i ≤ 1024 := by
  rw [queueBlockSize]
  split
  · omega
  · split
    · decide
    · omega

theorem PageOk.page_ne_zero (h : PageOk m t i q) : m.page q ≠ .zero := by
  intro hz
  have := h.size
  rw [hz] at this
  have hge := queueBlockSize_ge i
  rw [← this] at hge
  exact absurd hge (by decide)

theorem Inv.queued_of_placed (hi : Inv m) (hb : m.place b ≠ .none) :
    ∃ t i, pageOf b ∈ (m.tls t).pages i := by
  rcases hi.inUse (pageOf b) with hz | hq
  · exact absurd (hi.unplaced b hz) hb
  · exact hq

theorem Inv.owner_of_placed (hi : Inv m) (hb : m.place b ≠ .none) :
    (m.sas (segmentOf (pageOf b))).threadId ≠ 0 := by
  obtain ⟨t, i, hq⟩ := hi.queued_of_placed hb
  obtain ⟨ht, _, hp⟩ := hi.queued t i _ hq
  rw [hp.owner]
  exact ht

theorem Inv.queued_of_owner (hi : Inv m) (hb : m.place b ≠ .none)
    (hu : (m.sas (segmentOf (pageOf b))).threadId = u) : ∃ i, pageOf b ∈ (m.tls u).pages i := by
  obtain ⟨t, i, hq⟩ := hi.queued_of_placed hb
  have := (hi.queued t i _ hq).2.2.owner
  rw [← hu, this]
  exact ⟨i, hq⟩

theorem Inv.block_ne_zero (hi : Inv m) (hb : m.place b ≠ .none) : b ≠ 0 := by
  obtain ⟨t, i, hq⟩ := hi.queued_of_placed hb
  have hin := (hi.queued t i _ hq).2.2.inner
  rintro rfl
  exact hin (by decide)

/-! ## What the steps do -/

/-- The changes thread `u` makes, with what it knows then. -/
inductive Move (u : Nat) (m : Mem) : Mem → Prop where
  | seize {b : Nat} {sp : Bool} (h : m.place b = .out sp) : Move u m (m.setPlace b (.held u))
  | write {b v : Nat} (h : m.place b = .held u) : Move u m (m.setNext b v)
  | use {b v : Nat} {sp : Bool} (h : m.place b = .out sp) : Move u m (m.setNext b v)
  | push {b : Nat} (h : m.place b = .held u)
      (hn : m.next b = (m.sas (segmentOf (pageOf b))).info.threadFree) :
      Move u m ((m.setInfo (segmentOf (pageOf b))
        ⟨(m.sas (segmentOf (pageOf b))).info.state, b⟩).setPlace b .threadFree)
  | grab {n : Nat} (h : (m.sas n).threadId = u) (hu : u ≠ 0) : Move u m (m.grab u n)
  | freeLocal {b i : Nat} (h : m.place b = .held u) (hq : pageOf b ∈ (m.tls u).pages i) :
      Move u m (m.freeLocal b)
  | collect {q i : Nat} (hq : q ∈ (m.tls u).pages i) : Move u m (m.collectLocal q)
  | pop {q i : Nat} (hq : q ∈ (m.tls u).pages i) (hne : (m.page q).free ≠ 0) :
      Move u m (m.popFree u q)
  | handOut {b i : Nat} {sp : Bool} (h : m.place b = .held u)
      (hq : pageOf b ∈ (m.tls u).pages i) (hsp : sp = decide (i < 2)) :
      Move u m (m.setPlace b (.out sp))
  | segmentAlloc {n : Nat} (h : (m.sas n).threadId = 0) (hu : u ≠ 0) : Move u m (m.segmentAlloc u n)
  | pageFresh {i q : Nat} {rest : List Nat} (hi : i < 66) (h : (m.tls u).freePage = q :: rest) :
      Move u m (m.pageFresh u i q rest)
  | pageFree {q i : Nat} (hq : q ∈ (m.tls u).pages i) (h : (m.page q).used = 0) :
      Move u m (m.pageFree u i q)
  | segmentFree {n : Nat} (h : (m.sas n).threadId = u) (hu : u ≠ 0)
      (hused : (m.segment n).used = 0) : Move u m (m.segmentFree u n)

/-! ### Pages that a step does not work on -/

/-- A page keeps its invariant when its metadata stay, its blocks move only among
the counted places, and the words of its free blocks stay. -/
theorem PageOk.frame (h : PageOk m t i q)
    (howner : (m'.sas (segmentOf q)).threadId = (m.sas (segmentOf q)).threadId)
    (hpage : m'.page q = m.page q)
    (hplace : ∀ b, pageOf b = q → m'.place b = m.place b ∨
      (m.place b).counted = true ∧ (m'.place b).counted = true ∧
        ∀ sp, m'.place b = .out sp → sp = decide (i < 2))
    (hnext : ∀ b, pageOf b = q → m.place b = .free ∨ m.place b = .localFree →
      m'.next b = m.next b) : PageOk m' t i q := by
  have hlist : ∀ p : Place, p.counted = false → p ≠ .none → ∀ b, pageOf b = q →
      (m'.place b = p ↔ m.place b = p) := by
    intro p hp hne b hb
    rcases hplace b hb with heq | ⟨h1, h2, _⟩
    · rw [heq]
    · constructor
      · intro hb'
        rw [hb', hp] at h2
        cases h2
      · intro hb'
        rw [hb', hp] at h1
        cases h1
  refine ⟨howner.trans h.owner, h.inner, hpage ▸ h.size, fun b hb => ?_, ?_, ?_, ?_, ?_⟩
  · rw [hpage, ← h.placed b hb]
    rcases hplace b hb with heq | ⟨h1, h2, _⟩
    · rw [heq]
    · constructor
      · intro _ hn
        rw [hn] at h1
        cases h1
      · intro _ hn
        rw [hn] at h2
        cases h2
  · rw [hpage]
    refine h.free.congr (fun b hb => hnext b hb.1 (.inl hb.2)) fun b => ?_
    exact and_congr_right fun hb => (hlist .free rfl nofun b hb).symm
  · rw [hpage]
    refine h.localFree.congr (fun b hb => hnext b hb.1 (.inr hb.2)) fun b => ?_
    exact and_congr_right fun hb => (hlist .localFree rfl nofun b hb).symm
  · rw [hpage, h.used]
    refine (usedCount_congr fun b hb => ?_).symm
    rcases hplace b hb with heq | ⟨h1, h2, _⟩
    · rw [heq]
    · rw [h1, h2]
  · intro b sp hb hsp
    rcases hplace b hb with heq | ⟨_, _, h3⟩
    · exact h.special b sp hb (heq ▸ hsp)
    · exact h3 sp hsp

/-- Steps that work on blocks leave queues, segments and the set of pages in use
as they are. -/
theorem Inv.frame (hi : Inv m) (htls : m'.tls = m.tls) (hseg : m'.segment = m.segment)
    (hsas : ∀ n, (m'.sas n).threadId = (m.sas n).threadId)
    (hstate : ∀ n, (m'.sas n).info.state = (m.sas n).info.state)
    (hzero : ∀ q, m'.page q = .zero ↔ m.page q = .zero)
    (hnone : ∀ b, m.place b = .none → m'.place b = .none)
    (hqueued : ∀ t i q, q ∈ (m.tls t).pages i → PageOk m' t i q)
    (hthread : ∀ n, (m.sas n).threadId ≠ 0 → Linked m'.next 0 (m'.sas n).info.threadFree
      fun b => segmentOf (pageOf b) = n ∧ m'.place b = .threadFree) : Inv m' where
  queued t i q hq := by
    rw [htls] at hq
    obtain ⟨ht, hlt, _⟩ := hi.queued t i q hq
    exact ⟨ht, hlt, hqueued t i q hq⟩
  queue_nodup := htls ▸ hi.queue_nodup
  queue_unique := htls ▸ hi.queue_unique
  freePage t q hq := by
    rw [htls] at hq
    obtain ⟨ht, hown, hin, hz⟩ := hi.freePage t q hq
    exact ⟨ht, (hsas _).trans hown, hin, (hzero q).mpr hz⟩
  free_nodup := htls ▸ hi.free_nodup
  inUse q := by
    rw [hzero, htls]
    exact hi.inUse q
  unplaced b hb := hnone b (hi.unplaced b ((hzero _).mp hb))
  threadId n := by
    rw [hseg, hsas]
    exact hi.threadId n
  normal n := (hstate n).trans (hi.normal n)
  threadFree n hn := hthread n (hsas n ▸ hn)
  segmentUsed n hn := by
    rw [hseg, hi.segmentUsed n (hsas n ▸ hn)]
    refine congrArg Finset.card (Finset.filter_congr fun j _ => ?_)
    exact not_congr (hzero _).symm

/-- The list of a segment stays when no block comes to it or leaves it. -/
theorem Inv.threadFree_frame (hi : Inv m) (hn : (m.sas n).threadId ≠ 0)
    (hinfo : (m'.sas n).info.threadFree = (m.sas n).info.threadFree)
    (hplace : ∀ b, segmentOf (pageOf b) = n → (m'.place b = .threadFree ↔ m.place b = .threadFree))
    (hnext : ∀ b, m.place b = .threadFree → m'.next b = m.next b) :
    Linked m'.next 0 (m'.sas n).info.threadFree
      fun b => segmentOf (pageOf b) = n ∧ m'.place b = .threadFree := by
  rw [hinfo]
  refine (hi.threadFree n hn).congr (fun b hb => hnext b hb.2) fun b => ?_
  exact and_congr_right fun hb => (hplace b hb).symm

/-! ### Steps that work on one block -/

@[simp] theorem setPlace_self {p : Place} : (m.setPlace b p).place b = p :=
  update_self ..

theorem setPlace_ne {p : Place} {c : Nat} (h : c ≠ b) : (m.setPlace b p).place c = m.place c :=
  update_of_ne h ..

theorem setPage_ne {p : Page} {q' : Nat} (h : q' ≠ q) : (m.setPage q p).page q' = m.page q' :=
  update_of_ne h ..

variable {info : Info}

theorem setInfo_threadId (n' : Nat) :
    ((m.setInfo n info).sas n').threadId = (m.sas n').threadId := by
  by_cases hn : n' = n
  · simp [Mem.setInfo, hn]
  · simp [Mem.setInfo, hn]

@[simp] theorem setInfo_self : ((m.setInfo n info).sas n).info = info := by
  simp [Mem.setInfo]

theorem setInfo_ne {n' : Nat} (h : n' ≠ n) : (m.setInfo n info).sas n' = m.sas n' :=
  update_of_ne h ..

theorem setInfo_state (h : info.state = (m.sas n).info.state) (n' : Nat) :
    ((m.setInfo n info).sas n').info.state = (m.sas n').info.state := by
  by_cases hn : n' = n
  · rw [hn, setInfo_self]
    exact h
  · rw [setInfo_ne hn]

/-- A block goes from one counted place to another, and not from or to the list of
its segment. -/
theorem Inv.setPlace {p : Place} (hi : Inv m) (hold : (m.place b).counted = true)
    (hnew : p.counted = true) (hold' : m.place b ≠ .threadFree) (hnew' : p ≠ .threadFree)
    (hsp : ∀ t i, pageOf b ∈ (m.tls t).pages i → ∀ sp, p = .out sp → sp = decide (i < 2)) :
    Inv (m.setPlace b p) := by
  refine hi.frame rfl rfl (fun _ => rfl) (fun _ => rfl) (fun _ => .rfl) ?_ ?_ ?_
  · intro c hc
    by_cases hcb : c = b
    · rw [← hcb, hc] at hold
      cases hold
    · exact (setPlace_ne hcb).trans hc
  · intro t i q hq
    refine (hi.queued t i q hq).2.2.frame rfl rfl (fun c hc => ?_) fun _ _ _ => rfl
    by_cases hcb : c = b
    · rw [hcb] at hc ⊢
      rw [setPlace_self]
      exact .inr ⟨hold, hnew, hsp t i (hc ▸ hq)⟩
    · exact .inl (setPlace_ne hcb)
  · intro n hn
    refine hi.threadFree_frame hn rfl (fun c _ => ?_) fun _ _ => rfl
    by_cases hcb : c = b
    · rw [hcb, setPlace_self]
      exact iff_of_false hnew' hold'
    · rw [setPlace_ne hcb]

theorem Inv.seize {sp : Bool} (hi : Inv m) (h : m.place b = .out sp) :
    Inv (m.setPlace b (.held u)) :=
  hi.setPlace (by rw [h]; rfl) rfl (by rw [h]; nofun) nofun fun _ _ _ _ hp => nomatch hp

theorem Inv.handOut {sp : Bool} (hi : Inv m) (h : m.place b = .held u)
    (hq : pageOf b ∈ (m.tls u).pages i) (hsp : sp = decide (i < 2)) :
    Inv (m.setPlace b (.out sp)) := by
  refine hi.setPlace (by rw [h]; rfl) rfl (by rw [h]; nofun) nofun fun t i' hq' sp' hp => ?_
  obtain ⟨_, rfl⟩ := hi.queue_unique _ _ _ _ _ hq hq'
  cases hp
  exact hsp

theorem Inv.setNext {v : Nat} (hi : Inv m) (hfree : m.place b ≠ .free)
    (hlocal : m.place b ≠ .localFree) (hthread : m.place b ≠ .threadFree) : Inv (m.setNext b v) := by
  have hne : ∀ c, m.place c ≠ m.place b → (m.setNext b v).next c = m.next c :=
    fun c hc => update_of_ne (fun heq => hc (congrArg m.place heq)) ..
  refine hi.frame rfl rfl (fun _ => rfl) (fun _ => rfl) (fun _ => .rfl) (fun _ hc => hc) ?_ ?_
  · intro t i q hq
    refine (hi.queued t i q hq).2.2.frame rfl rfl (fun _ _ => .inl rfl) fun c _ hc => hne c ?_
    rcases hc with hc | hc
    · exact hc ▸ hfree.symm
    · exact hc ▸ hlocal.symm
  · intro n hn
    exact hi.threadFree_frame hn rfl (fun _ _ => .rfl) fun c hc => hne c (hc ▸ hthread.symm)

theorem Inv.push (hi : Inv m) (h : m.place b = .held u)
    (hnext : m.next b = (m.sas (segmentOf (pageOf b))).info.threadFree) :
    Inv ((m.setInfo (segmentOf (pageOf b))
      ⟨(m.sas (segmentOf (pageOf b))).info.state, b⟩).setPlace b .threadFree) := by
  have hb : m.place b ≠ .none := by
    rw [h]
    nofun
  refine hi.frame rfl rfl setInfo_threadId (setInfo_state rfl) (fun _ => .rfl) ?_ ?_ ?_
  · intro c hc
    refine (setPlace_ne ?_).trans hc
    rintro rfl
    exact hb hc
  · intro t i q hq
    refine (hi.queued t i q hq).2.2.frame (setInfo_threadId _) rfl (fun c _ => ?_) fun _ _ _ => rfl
    by_cases hcb : c = b
    · rw [hcb, setPlace_self, h]
      exact .inr ⟨rfl, rfl, nofun⟩
    · exact .inl (setPlace_ne hcb)
  · intro n hn
    show Linked m.next 0 ((m.setInfo _ _).sas n).info.threadFree fun c =>
      segmentOf (pageOf c) = n ∧ (m.setPlace b .threadFree).place c = .threadFree
    by_cases hnb : n = segmentOf (pageOf b)
    · subst hnb
      have hlist := (hi.threadFree _ hn).push (by rw [h]; exact fun hp => nomatch hp.2)
        (hi.block_ne_zero hb)
      rw [← hnext, update_eq_self] at hlist
      rw [setInfo_self]
      refine hlist.congr (fun _ _ => rfl) fun c => ?_
      by_cases hcb : c = b
      · simp [hcb]
      · simp [setPlace_ne hcb, hcb]
    · rw [setInfo_ne hnb]
      refine (hi.threadFree n hn).congr (fun _ _ => rfl) fun c => and_congr_right fun hc => ?_
      rw [setPlace_ne]
      rintro rfl
      exact hnb hc.symm

theorem Inv.grab (hi : Inv m) (hn : (m.sas n).threadId ≠ 0) : Inv (m.grab u n) := by
  have hplace : ∀ c, (m.grab u n).place c = m.place c ∨
      m.place c = .threadFree ∧ segmentOf (pageOf c) = n ∧ (m.grab u n).place c = .held u := by
    intro c
    dsimp only [Mem.grab]
    split
    · next h => exact .inr ⟨h.2, h.1, rfl⟩
    · exact .inl rfl
  refine hi.frame rfl rfl setInfo_threadId (setInfo_state rfl) (fun _ => .rfl) ?_ ?_ ?_
  · intro c hc
    rcases hplace c with heq | ⟨h, _, _⟩
    · exact heq.trans hc
    · cases hc.symm.trans h
  · intro t i q hq
    refine (hi.queued t i q hq).2.2.frame (setInfo_threadId _) rfl (fun c _ => ?_) fun _ _ _ => rfl
    rcases hplace c with heq | ⟨h, _, h'⟩
    · exact .inl heq
    · rw [h, h']
      exact .inr ⟨rfl, rfl, nofun⟩
  · intro n' hn'
    by_cases hnn : n' = n
    · subst hnn
      have hinfo : ((m.grab u n').sas n').info.threadFree = 0 := by
        simp only [Mem.grab, setInfo_self]
      rw [hinfo]
      refine .empty fun c hc => ?_
      rcases hplace c with heq | ⟨_, _, h⟩
      · have hc' := hc.2
        dsimp only [Mem.grab] at hc'
        rw [if_pos ⟨hc.1, heq ▸ hc.2⟩] at hc'
        cases hc'
      · cases h.symm.trans hc.2
    · refine hi.threadFree_frame hn' ?_ (fun c hc => ?_) fun _ _ => rfl
      · exact congrArg (fun s : Sas => s.info.threadFree) (setInfo_ne hnn)
      · rcases hplace c with heq | ⟨_, h, _⟩
        · rw [heq]
        · exact absurd (hc.symm.trans h) hnn

/-! ### Steps that work on one page in use -/

/-- What is left to show of a step that works on page `q` and its blocks. -/
theorem Inv.onPage (hi : Inv m) (hq : q ∈ (m.tls t).pages i) (htls : m'.tls = m.tls)
    (hseg : m'.segment = m.segment) (hsas : m'.sas = m.sas)
    (hpage : ∀ q', q' ≠ q → m'.page q' = m.page q')
    (hplace : ∀ c, pageOf c ≠ q → m'.place c = m.place c)
    (hnone : ∀ c, m.place c = .none → m'.place c = .none)
    (hlist : ∀ c, m'.place c = .threadFree ↔ m.place c = .threadFree)
    (hnext : ∀ c, (∀ w, m.place c ≠ .held w) → m'.next c = m.next c)
    (hok : PageOk m' t i q) : Inv m' := by
  refine hi.frame htls hseg (fun n => by rw [hsas]) (fun n => by rw [hsas]) (fun q' => ?_) hnone
    (fun t' i' q' hq' => ?_) fun n hn => ?_
  · by_cases hqq : q' = q
    · rw [hqq]
      exact iff_of_false hok.page_ne_zero (hi.queued t i q hq).2.2.page_ne_zero
    · rw [hpage q' hqq]
  · by_cases hqq : q' = q
    · subst hqq
      obtain ⟨rfl, rfl⟩ := hi.queue_unique _ _ _ _ _ hq hq'
      exact hok
    · refine (hi.queued t' i' q' hq').2.2.frame (by rw [hsas]) (hpage q' hqq)
        (fun c hc => .inl (hplace c (hc ▸ hqq))) fun c _ hc => hnext c fun w => ?_
      rcases hc with hc | hc <;> rw [hc] <;> nofun
  · refine hi.threadFree_frame hn (by rw [hsas]) (fun c _ => hlist c) fun c hc => hnext c fun w => ?_
    rw [hc]
    nofun

theorem freeLocal_place_ne {c : Nat} (h : c ≠ b) : (m.freeLocal b).place c = m.place c :=
  setPlace_ne h

theorem freeLocal_place_self : (m.freeLocal b).place b = .localFree := setPlace_self

theorem freeLocal_page_self : (m.freeLocal b).page (pageOf b) =
    { m.page (pageOf b) with localFree := b, used := (m.page (pageOf b)).used - 1 } :=
  update_self ..

/-- What is left to show of a step that moves block `b` of page `q`. -/
theorem Inv.onBlock {p : Place} {pg : Page} {next : Nat → Nat} (hi : Inv m)
    (hq : q ∈ (m.tls t).pages i) (hb : pageOf b = q) (hold : m.place b ≠ .none)
    (hold' : m.place b ≠ .threadFree) (hp : p ≠ .none ∧ p ≠ .threadFree ∧ ∀ sp, p ≠ .out sp)
    (hsize : pg.blockSize = (m.page q).blockSize)
    (hnext : ∀ c, (∀ w, m.place c ≠ .held w) → next c = m.next c)
    (hfree : Linked next 0 pg.free fun c => pageOf c = q ∧ update m.place b p c = .free)
    (hlocal : Linked next 0 pg.localFree fun c => pageOf c = q ∧ update m.place b p c = .localFree)
    (hused : pg.used = usedCount (update m.place b p) (m.page q).blockSize q) :
    Inv { m with next := next, page := update m.page q pg, place := update m.place b p } := by
  have h := (hi.queued t i q hq).2.2
  refine hi.onPage hq rfl rfl rfl (fun q' hq' => update_of_ne hq' ..) (fun c hc => ?_) (fun c hc => ?_)
    (fun c => ?_) hnext ⟨h.owner, h.inner, ?_, fun c hc => ?_, ?_, ?_, ?_, fun c sp hc => ?_⟩ <;>
    dsimp only
  · refine update_of_ne ?_ ..
    rintro rfl
    exact hc hb
  · refine (update_of_ne ?_ ..).trans hc
    rintro rfl
    exact hold hc
  · by_cases hcb : c = b
    · simp [hcb, hold', hp.2.1]
    · simp [hcb]
  · rw [update_self, hsize, h.size]
  · rw [update_self, hsize]
    by_cases hcb : c = b
    · simp [hcb, hp.1, (h.placed b hb).mp hold]
    · simp [hcb, h.placed c hc]
  · rw [update_self]
    exact hfree
  · rw [update_self]
    exact hlocal
  · rw [update_self, hsize]
    exact hused
  · rw [update_apply]
    split
    · exact fun hsp => absurd hsp (hp.2.2 sp)
    · exact h.special c sp hc

theorem Inv.freeLocal (hi : Inv m) (h : m.place b = .held u)
    (hq : pageOf b ∈ (m.tls t).pages i) : Inv (m.freeLocal b) := by
  have hok := (hi.queued t i _ hq).2.2
  have hb : m.place b ≠ .none := by
    rw [h]
    nofun
  refine hi.onBlock hq rfl hb (by rw [h]; nofun) ⟨nofun, nofun, nofun⟩ rfl (fun c hc => ?_) ?_ ?_ ?_
  · refine update_of_ne ?_ ..
    rintro rfl
    exact hc u h
  · refine hok.free.congr (fun c hc => update_of_ne ?_ ..) fun c => ?_
    · rintro rfl
      cases h.symm.trans hc.2
    · by_cases hcb : c = b
      · simp [hcb, h]
      · rw [update_of_ne hcb]
  · refine (hok.localFree.push (fun hc => ?_) (hi.block_ne_zero hb)).congr (fun _ _ => rfl) fun c => ?_
    · cases h.symm.trans hc.2
    · by_cases hcb : c = b
      · simp [hcb]
      · simp [hcb]
  · have hsucc : usedCount m.place _ (pageOf b) = usedCount (update m.place b .localFree) _ _ + 1 :=
      usedCount_succ (mem_blocksOf.mpr ⟨rfl, (hok.placed b rfl).mp hb⟩) (by rw [update_self]; rfl)
        (by rw [h]; rfl) fun c hc => by rw [update_of_ne hc]
    have hused := hok.used
    dsimp only
    omega

theorem Inv.collectLocal (hi : Inv m) (hq : q ∈ (m.tls t).pages i) : Inv (m.collectLocal q) := by
  have h := (hi.queued t i q hq).2.2
  rw [Mem.collectLocal]
  split
  · next hcond =>
    -- `free` is empty, so nothing of this page is at `free` yet
    have hfree : ∀ c, ¬ (pageOf c = q ∧ m.place c = .free) := by
      have := h.free
      rw [hcond.2] at this
      exact this.not_of_null
    have hpage : update m.page q { m.page q with free := (m.page q).localFree, localFree := 0 } q =
        { m.page q with free := (m.page q).localFree, localFree := 0 } := update_self ..
    have hcount : ∀ c, (if pageOf c = q ∧ m.place c = .localFree then Place.free
        else m.place c).counted = (m.place c).counted := by
      intro c
      split
      · next hc => rw [hc.2]; rfl
      · rfl
    refine hi.onPage hq rfl rfl rfl (fun q' hq' => setPage_ne hq') (fun c hc => ?_) (fun c hc => ?_)
      (fun c => ?_) (fun _ _ => rfl) ⟨h.owner, h.inner, ?_, fun c hc => ?_, ?_, ?_, ?_, fun c sp hc hsp => ?_⟩
    · exact if_neg fun hcq => hc hcq.1
    · dsimp only
      rw [hc, if_neg]
      nofun
    · dsimp only
      split
      · next hc =>
        rw [hc.2]
        exact iff_of_false nofun nofun
      · rfl
    · exact (congrArg Page.blockSize hpage).trans h.size
    · rw [show (m.setPage q _).page q = _ from hpage, ← h.placed c hc]
      dsimp only
      split
      · next hc' =>
        rw [hc'.2]
        exact iff_of_true nofun nofun
      · rfl
    · rw [show (m.setPage q _).page q = _ from hpage]
      refine h.localFree.congr (fun _ _ => rfl) fun c => and_congr_right fun hc => ?_
      dsimp only
      by_cases hc' : m.place c = .localFree
      · rw [if_pos ⟨hc, hc'⟩]
        exact iff_of_true hc' rfl
      · rw [if_neg fun hcq => hc' hcq.2]
        exact iff_of_false hc' fun hf => hfree c ⟨hc, hf⟩
    · rw [show (m.setPage q _).page q = _ from hpage]
      refine .empty fun c hc => ?_
      have hc2 := hc.2
      dsimp only at hc2
      split at hc2
      · cases hc2
      · next hnot => exact hnot ⟨hc.1, hc2⟩
    · rw [show (m.setPage q _).page q = _ from hpage]
      exact h.used.trans (usedCount_congr fun c _ => hcount c).symm
    · dsimp only at hsp
      split at hsp
      · cases hsp
      · exact h.special c sp hc hsp
  · exact hi

theorem Inv.popFree (hi : Inv m) (hq : q ∈ (m.tls t).pages i) (hne : (m.page q).free ≠ 0) :
    Inv (m.popFree u q) := by
  have hok := (hi.queued t i q hq).2.2
  obtain ⟨⟨hpage, hplace⟩, hrest⟩ := hok.free.pop hne
  have hb : m.place (m.page q).free ≠ .none := by
    rw [hplace]
    nofun
  refine hi.onBlock hq hpage hb (by rw [hplace]; nofun) ⟨nofun, nofun, nofun⟩ rfl (fun _ _ => rfl)
    ?_ ?_ ?_
  · refine hrest.congr (fun _ _ => rfl) fun c => ?_
    by_cases hcb : c = (m.page q).free
    · simp [hcb]
    · simp [hcb]
  · refine hok.localFree.congr (fun _ _ => rfl) fun c => ?_
    by_cases hcb : c = (m.page q).free
    · simp [hcb, hplace]
    · rw [update_of_ne hcb]
  · refine (congrArg (· + 1) hok.used).trans (usedCount_succ
      (mem_blocksOf.mpr ⟨hpage, (hok.placed _ hpage).mp hb⟩) (by rw [hplace]; rfl)
      (by rw [update_self]; rfl) fun c hc => by rw [update_of_ne hc]).symm

/-! ### Segments and pages that come into use -/

theorem Inv.page_zero_of_unowned (hi : Inv m) (hn : (m.sas (segmentOf q)).threadId = 0) :
    m.page q = .zero := by
  rcases hi.inUse q with hz | ⟨t, i, hq⟩
  · exact hz
  · obtain ⟨ht, _, hok⟩ := hi.queued t i q hq
    exact absurd (hok.owner.symm.trans hn) ht

theorem segmentOf_add {j : Nat} (hj : j < pagesPerSegment) :
    segmentOf (n * pagesPerSegment + j) = n := by
  have hpos : 0 < pagesPerSegment := by decide
  rw [segmentOf, Nat.mul_comm, Nat.mul_add_div hpos, Nat.div_eq_of_lt hj, Nat.add_zero]

theorem pagesInUse_congr (h : ∀ q, segmentOf q = n → m'.page q = m.page q) :
    pagesInUse m' n = pagesInUse m n := by
  refine Finset.filter_congr fun j hj => ?_
  rw [h _ (segmentOf_add (Finset.mem_range.mp hj))]

theorem card_pagesInUse_succ (hz : m.page q = .zero) (hnz : m'.page q ≠ .zero)
    (hother : ∀ q', q' ≠ q → m'.page q' = m.page q') :
    (pagesInUse m' (segmentOf q)).card = (pagesInUse m (segmentOf q)).card + 1 := by
  have hq : segmentOf q * pagesPerSegment + q % pagesPerSegment = q := by
    rw [segmentOf, Nat.mul_comm]
    exact Nat.div_add_mod q pagesPerSegment
  have hlt : q % pagesPerSegment < pagesPerSegment := Nat.mod_lt q (by decide)
  have hset : pagesInUse m' (segmentOf q) =
      insert (q % pagesPerSegment) (pagesInUse m (segmentOf q)) := by
    ext j
    rw [Finset.mem_insert, pagesInUse, pagesInUse, Finset.mem_filter, Finset.mem_filter]
    by_cases hj : j = q % pagesPerSegment
    · subst hj
      rw [hq]
      exact iff_of_true ⟨Finset.mem_range.mpr hlt, hnz⟩ (.inl rfl)
    · rw [hother]
      · simp only [hj, false_or]
      · intro heq
        exact hj (Nat.add_left_cancel (heq.trans hq.symm))
  rw [hset, Finset.card_insert_of_notMem]
  rw [pagesInUse, Finset.mem_filter, hq]
  exact fun h => h.2 hz

theorem mem_segmentPages : q ∈ (List.range' 1 (pagesPerSegment - 1)).map (n * pagesPerSegment + ·) ↔
      segmentOf q = n ∧ q % pagesPerSegment ≠ 0 := by
  have hdiv := Nat.div_add_mod q pagesPerSegment
  have hpos : 0 < pagesPerSegment := by decide
  have hlt := Nat.mod_lt q hpos
  rw [List.mem_map]
  constructor
  · intro h
    obtain ⟨j, hj, rfl⟩ := h
    rw [List.mem_range'_1] at hj
    have hj' : j < pagesPerSegment := by omega
    refine ⟨segmentOf_add hj', ?_⟩
    rw [Nat.mul_comm, Nat.mul_add_mod, Nat.mod_eq_of_lt hj']
    omega
  · intro h
    obtain ⟨rfl, hne⟩ := h
    refine ⟨q % pagesPerSegment, ?_, ?_⟩
    · rw [List.mem_range'_1]
      omega
    · rw [segmentOf, Nat.mul_comm]
      exact hdiv

theorem segmentPages_nodup :
    ((List.range' 1 (pagesPerSegment - 1)).map (n * pagesPerSegment + ·)).Nodup :=
  List.Nodup.map (fun _ _ h => Nat.add_left_cancel h) List.nodup_range'

theorem segmentAlloc_pages : ((m.segmentAlloc u n).tls t).pages = (m.tls t).pages := by
  rw [Mem.segmentAlloc, Mem.setFreePage]
  dsimp only
  rw [update_apply]
  split
  · next htu => rw [htu]
  · rfl

theorem segmentAlloc_freePage_self : ((m.segmentAlloc u n).tls u).freePage =
    (List.range' 1 (pagesPerSegment - 1)).map (n * pagesPerSegment + ·) ++ (m.tls u).freePage := by
  simp [Mem.segmentAlloc, Mem.setFreePage]

theorem segmentAlloc_freePage_ne (h : t ≠ u) :
    ((m.segmentAlloc u n).tls t).freePage = (m.tls t).freePage := by
  simp [Mem.segmentAlloc, Mem.setFreePage, h]

theorem segmentAlloc_sas_self : (m.segmentAlloc u n).sas n = ⟨u, ⟨.normal, 0⟩⟩ :=
  update_self ..

theorem segmentAlloc_sas_ne (h : k ≠ n) : (m.segmentAlloc u n).sas k = m.sas k :=
  update_of_ne h ..

theorem segmentAlloc_segment_self : (m.segmentAlloc u n).segment n = ⟨u, 0⟩ :=
  update_self ..

theorem segmentAlloc_segment_ne (h : k ≠ n) : (m.segmentAlloc u n).segment k = m.segment k :=
  update_of_ne h ..

theorem Inv.segmentAlloc (hi : Inv m) (h : (m.sas n).threadId = 0) (hu : u ≠ 0) :
    Inv (m.segmentAlloc u n) where
  queued t i q hq := by
    rw [segmentAlloc_pages] at hq
    obtain ⟨ht, hlt, hok⟩ := hi.queued t i q hq
    have hne : segmentOf q ≠ n := by
      rintro rfl
      exact ht (hok.owner.symm.trans h)
    exact ⟨ht, hlt, hok.frame (by rw [segmentAlloc_sas_ne hne]) rfl (fun _ _ => .inl rfl)
      fun _ _ _ => rfl⟩
  queue_nodup t i := by
    rw [segmentAlloc_pages]
    exact hi.queue_nodup t i
  queue_unique t i t' i' q := by
    rw [segmentAlloc_pages, segmentAlloc_pages]
    exact hi.queue_unique t i t' i' q
  freePage t q hq := by
    have hold : q ∈ (m.tls t).freePage → t ≠ 0 ∧
        ((m.segmentAlloc u n).sas (segmentOf q)).threadId = t ∧ q % pagesPerSegment ≠ 0 ∧
          m.page q = .zero := by
      intro hq
      obtain ⟨ht, hown, hin, hz⟩ := hi.freePage t q hq
      have hne : segmentOf q ≠ n := by
        rintro rfl
        exact ht (hown.symm.trans h)
      rw [segmentAlloc_sas_ne hne]
      exact ⟨ht, hown, hin, hz⟩
    by_cases htu : t = u
    · subst htu
      rw [segmentAlloc_freePage_self, List.mem_append, mem_segmentPages] at hq
      rcases hq with ⟨rfl, hin⟩ | hq
      · rw [segmentAlloc_sas_self]
        exact ⟨hu, rfl, hin, hi.page_zero_of_unowned h⟩
      · exact hold hq
    · rw [segmentAlloc_freePage_ne htu] at hq
      exact hold hq
  free_nodup t := by
    by_cases htu : t = u
    · subst htu
      rw [segmentAlloc_freePage_self, List.nodup_append']
      refine ⟨segmentPages_nodup, hi.free_nodup t, fun q hq hq' => ?_⟩
      obtain ⟨ht, hown, _⟩ := hi.freePage t q hq'
      rw [(mem_segmentPages.mp hq).1] at hown
      exact ht (hown.symm.trans h)
    · rw [segmentAlloc_freePage_ne htu]
      exact hi.free_nodup t
  inUse q := by
    rcases hi.inUse q with hz | ⟨t, i, hq⟩
    · exact .inl hz
    · refine .inr ⟨t, i, ?_⟩
      rw [segmentAlloc_pages]
      exact hq
  unplaced := hi.unplaced
  threadId k := by
    by_cases hk : k = n
    · rw [hk, segmentAlloc_segment_self, segmentAlloc_sas_self]
    · rw [segmentAlloc_segment_ne hk, segmentAlloc_sas_ne hk]
      exact hi.threadId k
  normal k := by
    by_cases hkn : k = n
    · rw [hkn, segmentAlloc_sas_self]
    · rw [segmentAlloc_sas_ne hkn]
      exact hi.normal k
  threadFree k hk := by
    by_cases hkn : k = n
    · rw [hkn, segmentAlloc_sas_self]
      refine .empty fun b hb => hi.owner_of_placed ?_ (hb.1.symm ▸ h)
      rw [show m.place b = .threadFree from hb.2]
      nofun
    · rw [segmentAlloc_sas_ne hkn] at hk ⊢
      exact hi.threadFree k hk
  segmentUsed k hk := by
    by_cases hkn : k = n
    · rw [hkn, segmentAlloc_segment_self]
      refine (Finset.card_eq_zero.mpr (Finset.filter_eq_empty_iff.mpr fun j hj => ?_)).symm
      refine not_not.mpr (hi.page_zero_of_unowned ?_)
      rw [segmentOf_add (Finset.mem_range.mp hj)]
      exact h
    · rw [segmentAlloc_sas_ne hkn] at hk
      rw [segmentAlloc_segment_ne hkn]
      exact hi.segmentUsed k hk

section PageFresh

variable {rest : List Nat}

theorem pageFresh_page : (m.pageFresh u i q rest).page =
    update m.page q ⟨q * pageSize, 0, queueBlockSize i, 0, decide (i = 1)⟩ := by
  simp [Mem.pageFresh, Mem.pushPage, Mem.setPage, Mem.pageInit, Mem.setFreePage]

theorem pageFresh_tls : (m.pageFresh u i q rest).tls = update m.tls u
    ⟨update (m.tls u).pages i (q :: (m.tls u).pages i), rest⟩ := by
  simp [Mem.pageFresh, Mem.pushPage, Mem.setPage, Mem.pageInit, Mem.setFreePage]

theorem pageFresh_segment : (m.pageFresh u i q rest).segment = update m.segment (segmentOf q)
      ⟨(m.segment (segmentOf q)).threadId, (m.segment (segmentOf q)).used + 1⟩ := rfl

theorem pageFresh_place : (m.pageFresh u i q rest).place b =
    if pageOf b = q ∧ isBlock (queueBlockSize i) b then .free else m.place b := rfl

theorem pageFresh_next_ne (h : pageOf b ≠ q) : (m.pageFresh u i q rest).next b = m.next b :=
  if_neg fun hb => h hb.1

theorem pageFresh_next_block {k : Nat} (hz : m.page q = .zero)
    (hk : k < pageSize / queueBlockSize i) :
    (m.pageFresh u i q rest).next (q * pageSize + k * queueBlockSize i) =
      if k + 1 < pageSize / queueBlockSize i then q * pageSize + (k + 1) * queueBlockSize i
      else 0 := by
  have hbs : 0 < queueBlockSize i := Nat.lt_of_lt_of_le (by decide) (queueBlockSize_ge i)
  have hlast : q * pageSize + k * queueBlockSize i <
      q * pageSize + (pageSize / queueBlockSize i - 1) * queueBlockSize i ↔
        k + 1 < pageSize / queueBlockSize i := by
    rw [Nat.add_lt_add_iff_left, Nat.mul_lt_mul_right hbs]
    omega
  refine (if_pos ⟨pageOf_block hk, isBlock_block hk⟩).trans ?_
  rw [show ((m.setFreePage u rest).page q).free = 0 from congrArg Page.free hz]
  by_cases hlt : k + 1 < pageSize / queueBlockSize i
  · rw [if_pos (hlast.mpr hlt), if_pos hlt, Nat.succ_mul, Nat.add_assoc]
  · rw [if_neg (mt hlast.mp hlt), if_neg hlt]

theorem mem_pageFresh_pages {j q' : Nat} : q' ∈ ((m.pageFresh u i q rest).tls t).pages j ↔
    t = u ∧ j = i ∧ q' = q ∨ q' ∈ (m.tls t).pages j := by
  rw [pageFresh_tls]
  by_cases htu : t = u
  · subst htu
    by_cases hji : j = i
    · subst hji
      simp
    · simp [hji]
  · simp [htu]

theorem Inv.queues_nodup {l free : List Nat} (hi : Inv m) (hl : l.Nodup) (t j : Nat) :
    ((update m.tls u ⟨update (m.tls u).pages i l, free⟩ t).pages j).Nodup := by
  rw [update_apply]
  split
  · dsimp only
    rw [update_apply]
    split
    · exact hl
    · exact hi.queue_nodup u j
  · exact hi.queue_nodup t j

/-- `cxl_page_init` threads all blocks of the page into `free`. -/
theorem PageOk.pageFresh (hi : Inv m) (hlt : i < 66) (howner : (m.sas (segmentOf q)).threadId = u)
    (hin : q % pagesPerSegment ≠ 0) (hz : m.page q = .zero) :
    PageOk (m.pageFresh u i q rest) u i q := by
  have hpg : (m.pageFresh u i q rest).page q =
      ⟨q * pageSize, 0, queueBlockSize i, 0, decide (i = 1)⟩ := by
    rw [pageFresh_page, update_self]
  have hnone : ∀ c, pageOf c = q → m.place c = .none := fun c hc => hi.unplaced c (hc ▸ hz)
  have hplace : ∀ c, pageOf c = q → (m.pageFresh u i q rest).place c =
      if isBlock (queueBlockSize i) c then .free else .none := by
    intro c hc
    rw [pageFresh_place, hnone c hc]
    simp only [hc, true_and]
  have hbs : 0 < queueBlockSize i := Nat.lt_of_lt_of_le (by decide) (queueBlockSize_ge i)
  have hcount : 0 < pageSize / queueBlockSize i :=
    Nat.div_pos (Nat.le_trans (queueBlockSize_le hlt) (by decide)) hbs
  refine ⟨howner, hin, by rw [hpg], fun c hc => ?_, ?_, ?_, ?_, fun c sp hc hsp => ?_⟩
  · rw [hpg, hplace c hc]
    split
    · next hblock => exact iff_of_true nofun hblock
    · next hblock => exact iff_of_false (not_not.mpr rfl) hblock
  · rw [hpg]
    have hlist : Linked (m.pageFresh u i q rest).next 0 (q * pageSize + 0 * queueBlockSize i)
        fun c => pageOf c = q ∧ (m.pageFresh u i q rest).place c = .free := by
      refine Linked.of_range hcount.ne'
        (fun k _ => ?_) (fun k l _ _ h => Nat.mul_right_cancel hbs (Nat.add_left_cancel h))
        (fun k hk => pageFresh_next_block hz hk) (fun c => ?_)
      · have hq : q ≠ 0 := by
          rintro rfl
          exact hin rfl
        have hpos : 0 < q * pageSize := Nat.mul_pos (Nat.pos_of_ne_zero hq) (by decide)
        omega
      · refine Iff.trans (and_congr_right fun hc => ?_) isBlock_iff
        rw [hplace c hc]
        split
        · next hblock => exact iff_of_true rfl hblock
        · next hblock => exact iff_of_false nofun hblock
    rwa [Nat.zero_mul, Nat.add_zero] at hlist
  · rw [hpg]
    refine .empty fun c hc => ?_
    have hc2 := hc.2
    rw [hplace c hc.1] at hc2
    split at hc2 <;> cases hc2
  · rw [hpg]
    refine (Finset.card_eq_zero.mpr (Finset.filter_eq_empty_iff.mpr fun c hc => ?_)).symm
    rw [hplace c (mem_blocksOf.mp hc).1]
    split <;> nofun
  · rw [hplace c hc] at hsp
    split at hsp <;> cases hsp

theorem Inv.pageFresh (hi : Inv m) (hlt : i < 66) (h : (m.tls u).freePage = q :: rest) :
    Inv (m.pageFresh u i q rest) := by
  obtain ⟨hu, howner, hin, hz⟩ := hi.freePage u q (h ▸ .head _)
  have hnd := hi.free_nodup u
  rw [h, List.nodup_cons] at hnd
  have hunq : ∀ t j, q ∉ (m.tls t).pages j := fun t j hq =>
    (hi.queued t j q hq).2.2.page_ne_zero hz
  have hother : ∀ q', q' ≠ q → (m.pageFresh u i q rest).page q' = m.page q' := by
    intro q' hq'
    rw [pageFresh_page, update_of_ne hq']
  have hplace : ∀ c, pageOf c ≠ q → (m.pageFresh u i q rest).place c = m.place c :=
    fun c hc => if_neg fun hb => hc hb.1
  have hok : PageOk (m.pageFresh u i q rest) u i q := .pageFresh hi hlt howner hin hz
  have hself : (m.pageFresh u i q rest).page q ≠ .zero := hok.page_ne_zero
  refine ⟨fun t j q' hq' => ?_, pageFresh_tls ▸ hi.queues_nodup
    (List.nodup_cons.mpr ⟨hunq u i, hi.queue_nodup u i⟩), ?_, fun t q' hq' => ?_,
    fun t => ?_, fun q' => ?_, fun c hc => ?_, fun k => ?_, hi.normal, fun k hk => ?_, fun k hk => ?_⟩
  · rcases mem_pageFresh_pages.mp hq' with ⟨rfl, rfl, rfl⟩ | hq'
    · exact ⟨hu, hlt, hok⟩
    · obtain ⟨ht, hj, hok⟩ := hi.queued t j q' hq'
      have hne : q' ≠ q := fun heq => hunq t j (heq ▸ hq')
      exact ⟨ht, hj, hok.frame rfl (hother q' hne) (fun c hc => .inl (hplace c (hc ▸ hne)))
        fun c hc _ => pageFresh_next_ne (hc ▸ hne)⟩
  · intro t j t' j' q' hq hq'
    rcases mem_pageFresh_pages.mp hq with ⟨ht, hj, rfl⟩ | hq <;>
      rcases mem_pageFresh_pages.mp hq' with ⟨ht', hj', hqq⟩ | hq'
    · exact ⟨ht.trans ht'.symm, hj.trans hj'.symm⟩
    · exact absurd hq' (hunq _ _)
    · exact absurd hq (hqq ▸ hunq _ _)
    · exact hi.queue_unique t j t' j' q' hq hq'
  · have hold : q' ∈ (m.tls t).freePage ∧ q' ≠ q := by
      rw [pageFresh_tls] at hq'
      by_cases htu : t = u
      · subst htu
        rw [update_self] at hq'
        refine ⟨h ▸ .tail _ hq', ?_⟩
        rintro rfl
        exact hnd.1 hq'
      · rw [update_of_ne htu] at hq'
        refine ⟨hq', ?_⟩
        rintro rfl
        exact htu ((hi.freePage t q' hq').2.1.symm.trans howner)
    rw [hother q' hold.2]
    exact hi.freePage t q' hold.1
  · rw [pageFresh_tls]
    rw [update_apply]
    split
    · exact hnd.2
    · exact hi.free_nodup t
  · by_cases hq' : q' = q
    · exact .inr ⟨u, i, mem_pageFresh_pages.mpr (.inl ⟨rfl, rfl, hq'⟩)⟩
    · rw [hother q' hq']
      refine (hi.inUse q').imp_right fun ⟨t, j, hmem⟩ => ⟨t, j, ?_⟩
      exact mem_pageFresh_pages.mpr (.inr hmem)
  · have hne : pageOf c ≠ q := by
      intro heq
      rw [heq] at hc
      exact hself hc
    rw [hother _ hne] at hc
    rw [hplace c hne]
    exact hi.unplaced c hc
  · refine Eq.trans ?_ (hi.threadId k)
    rw [pageFresh_segment]
    rw [update_apply]
    split
    · next hk => rw [hk]
    · rfl
  · refine (hi.threadFree k hk).congr (fun c hc => pageFresh_next_ne ?_) fun c =>
      and_congr_right fun _ => ?_
    · intro heq
      cases (hi.unplaced c (heq ▸ hz)).symm.trans hc.2
    · by_cases hcq : pageOf c = q
      · rw [hi.unplaced c (hcq ▸ hz), pageFresh_place, hi.unplaced c (hcq ▸ hz)]
        split <;> exact iff_of_false nofun nofun
      · rw [hplace c hcq]
  · have hold := hi.segmentUsed k hk
    rw [pageFresh_segment]
    rw [update_apply]
    split
    · next hkq => rw [hkq, card_pagesInUse_succ hz hself hother, ← hkq, ← hold]
    · next hkq =>
      rw [hold]
      refine congrArg Finset.card (pagesInUse_congr fun q' hq' => ?_).symm
      refine hother q' ?_
      rintro rfl
      exact hkq hq'.symm

end PageFresh

/-! ### Pages and segments that go out of use -/

theorem pageFree_page : (m.pageFree u i q).page = update m.page q .zero := rfl

theorem pageFree_segment : (m.pageFree u i q).segment = update m.segment (segmentOf q)
      ⟨(m.segment (segmentOf q)).threadId, (m.segment (segmentOf q)).used - 1⟩ := rfl

theorem pageFree_place : (m.pageFree u i q).place b =
    if pageOf b = q then .none else m.place b := rfl

theorem pageFree_tls : (m.pageFree u i q).tls = update m.tls u
    ⟨update (m.tls u).pages i (((m.tls u).pages i).erase q),
      q :: (m.tls u).freePage⟩ := by
  simp [Mem.pageFree, Mem.removePage, Mem.setPage, Mem.setFreePage]

theorem mem_pageFree_pages {j q' : Nat} (hi : Inv m) (hq : q ∈ (m.tls u).pages i) :
    q' ∈ ((m.pageFree u i q).tls t).pages j ↔ q' ∈ (m.tls t).pages j ∧ q' ≠ q := by
  -- the page is in no other queue
  have hne : ¬ (t = u ∧ j = i) → q' ∈ (m.tls t).pages j → q' ≠ q := by
    rintro hnot hq' rfl
    exact hnot (hi.queue_unique t j u i q' hq' hq)
  rw [pageFree_tls]
  by_cases htu : t = u
  · subst htu
    rw [update_self]
    by_cases hji : j = i
    · subst hji
      dsimp only
      rw [update_self, (hi.queue_nodup t j).mem_erase_iff, and_comm]
    · dsimp only
      rw [update_of_ne hji]
      exact (and_iff_left_of_imp (hne fun h => hji h.2)).symm
  · rw [update_of_ne htu]
    exact (and_iff_left_of_imp (hne fun h => htu h.1)).symm

/-- No block of a page is handed out, held or on the list of the segment when the
page has no block in use. -/
theorem PageOk.not_counted (h : PageOk m t i q) (hused : (m.page q).used = 0)
    (hb : pageOf b = q) : (m.place b).counted = false := by
  by_cases hn : m.place b = .none
  · rw [hn]
    rfl
  · exact counted_of_usedCount_zero (h.used.symm.trans hused) ⟨hb, (h.placed b hb).mp hn⟩

theorem Inv.pageFree (hi : Inv m) (hq : q ∈ (m.tls u).pages i) (hused : (m.page q).used = 0) :
    Inv (m.pageFree u i q) := by
  obtain ⟨hu, _, hok⟩ := hi.queued u i q hq
  have hnz := hok.page_ne_zero
  have hother : ∀ q', q' ≠ q → (m.pageFree u i q).page q' = m.page q' :=
    fun q' hq' => update_of_ne hq' ..
  have hself : (m.pageFree u i q).page q = .zero := update_self ..
  have hplace : ∀ c, pageOf c ≠ q → (m.pageFree u i q).place c = m.place c :=
    fun c hc => if_neg hc
  refine ⟨fun t j q' hq' => ?_, pageFree_tls ▸ hi.queues_nodup ((hi.queue_nodup u i).erase q), fun t j t' j' q' h1 h2 => ?_,
    fun t q' hq' => ?_, fun t => ?_, fun q' => ?_, fun c hc => ?_, fun k => ?_, hi.normal,
    fun k hk => ?_, fun k hk => ?_⟩
  · obtain ⟨hq', hne⟩ := (mem_pageFree_pages hi hq).mp hq'
    obtain ⟨ht, hj, hok'⟩ := hi.queued t j q' hq'
    exact ⟨ht, hj, hok'.frame rfl (hother q' hne) (fun c hc => .inl (hplace c (hc ▸ hne)))
      fun _ _ _ => rfl⟩
  · exact hi.queue_unique t j t' j' q' ((mem_pageFree_pages hi hq).mp h1).1
      ((mem_pageFree_pages hi hq).mp h2).1
  · have hold : q' ∈ (m.tls t).freePage →
        t ≠ 0 ∧ (m.sas (segmentOf q')).threadId = t ∧ q' % pagesPerSegment ≠ 0 ∧
          (m.pageFree u i q).page q' = .zero := by
      intro hq'
      obtain ⟨ht, hown, hin, hz⟩ := hi.freePage t q' hq'
      have hne : q' ≠ q := by
        rintro rfl
        exact hnz hz
      rw [hother q' hne]
      exact ⟨ht, hown, hin, hz⟩
    rw [pageFree_tls] at hq'
    by_cases htu : t = u
    · subst htu
      rw [update_self, List.mem_cons] at hq'
      rcases hq' with rfl | hq'
      · exact ⟨hu, hok.owner, hok.inner, hself⟩
      · exact hold hq'
    · rw [update_of_ne htu] at hq'
      exact hold hq'
  · rw [pageFree_tls]
    rw [update_apply]
    split
    · refine List.nodup_cons.mpr ⟨fun hmem => ?_, hi.free_nodup u⟩
      exact hnz (hi.freePage u q hmem).2.2.2
    · exact hi.free_nodup t
  · by_cases hqq : q' = q
    · rw [hqq]
      exact .inl hself
    · rw [hother q' hqq]
      refine (hi.inUse q').imp_right fun ⟨t, j, hmem⟩ => ⟨t, j, ?_⟩
      exact (mem_pageFree_pages hi hq).mpr ⟨hmem, hqq⟩
  · by_cases hcq : pageOf c = q
    · rw [pageFree_place, if_pos hcq]
    · rw [hplace c hcq]
      rw [hother _ hcq] at hc
      exact hi.unplaced c hc
  · refine Eq.trans ?_ (hi.threadId k)
    rw [pageFree_segment]
    rw [update_apply]
    split
    · next hk => rw [hk]
    · rfl
  · refine hi.threadFree_frame hk rfl (fun c _ => ?_) fun _ _ => rfl
    by_cases hcq : pageOf c = q
    · have hnot := hok.not_counted hused hcq
      rw [pageFree_place, if_pos hcq]
      refine iff_of_false nofun fun hc => ?_
      rw [hc] at hnot
      cases hnot
    · rw [hplace c hcq]
  · have hold := hi.segmentUsed k hk
    rw [pageFree_segment]
    by_cases hkq : k = segmentOf q
    · have hsucc := card_pagesInUse_succ hself hnz fun q' hq' => (hother q' hq').symm
      rw [hkq] at hold ⊢
      rw [update_self]
      dsimp only
      omega
    · rw [update_of_ne hkq, hold]
      refine congrArg Finset.card (pagesInUse_congr fun q' hq' => ?_).symm
      refine hother q' ?_
      rintro rfl
      exact hkq hq'.symm

theorem segmentFree_pages : ((m.segmentFree u n).tls t).pages = (m.tls t).pages := by
  rw [Mem.segmentFree, Mem.setFreePage]
  dsimp only
  rw [update_apply]
  split
  · next htu => rw [htu]
  · rfl

theorem segmentFree_freePage_self : ((m.segmentFree u n).tls u).freePage =
    (m.tls u).freePage.filter fun q => segmentOf q ≠ n := by
  simp [Mem.segmentFree, Mem.setFreePage]

theorem segmentFree_freePage_ne (h : t ≠ u) :
    ((m.segmentFree u n).tls t).freePage = (m.tls t).freePage := by
  simp [Mem.segmentFree, Mem.setFreePage, h]

theorem segmentFree_sas_self : ((m.segmentFree u n).sas n).threadId = 0 := by
  simp [Mem.segmentFree, Mem.setFreePage]

theorem segmentFree_info : ((m.segmentFree u n).sas n).info = (m.sas n).info := by
  simp [Mem.segmentFree, Mem.setFreePage]

theorem segmentFree_sas_ne (h : k ≠ n) : (m.segmentFree u n).sas k = m.sas k :=
  update_of_ne h ..

theorem segmentFree_segment_self : (m.segmentFree u n).segment n = ⟨0, 0⟩ :=
  update_self ..

theorem segmentFree_segment_ne (h : k ≠ n) : (m.segmentFree u n).segment k = m.segment k :=
  update_of_ne h ..

theorem Inv.page_zero_of_unused (hi : Inv m) (hn : (m.sas n).threadId ≠ 0)
    (hused : (m.segment n).used = 0) (hq : segmentOf q = n) : m.page q = .zero := by
  have hcard := (hi.segmentUsed n hn).symm.trans hused
  rw [Finset.card_eq_zero, pagesInUse, Finset.filter_eq_empty_iff] at hcard
  have hz := hcard (Finset.mem_range.mpr (Nat.mod_lt q (show 0 < pagesPerSegment by decide)))
  rw [← hq, segmentOf, Nat.mul_comm, Nat.div_add_mod] at hz
  exact not_not.mp hz

theorem segmentFree_page (hi : Inv m) (hn : (m.sas n).threadId ≠ 0)
    (hused : (m.segment n).used = 0) : (m.segmentFree u n).page = m.page := by
  funext q
  show (if segmentOf q = n then Page.zero else m.page q) = m.page q
  split
  · next hq => exact (hi.page_zero_of_unused hn hused hq).symm
  · rfl

theorem Inv.segmentFree (hi : Inv m) (h : (m.sas n).threadId = u) (hu : u ≠ 0)
    (hused : (m.segment n).used = 0) : Inv (m.segmentFree u n) := by
  have hn : (m.sas n).threadId ≠ 0 := fun h0 => hu (h.symm.trans h0)
  have hpage : (m.segmentFree u n).page = m.page := segmentFree_page hi hn hused
  have howned : ∀ k, ((m.segmentFree u n).sas k).threadId ≠ 0 →
      k ≠ n ∧ (m.segmentFree u n).sas k = m.sas k := by
    intro k hk
    have hkn : k ≠ n := by
      rintro rfl
      exact hk segmentFree_sas_self
    exact ⟨hkn, segmentFree_sas_ne hkn⟩
  refine ⟨fun t j q hq => ?_, fun t j => ?_, fun t j t' j' q hq hq' => ?_, fun t q hq => ?_,
    fun t => ?_, fun q => ?_, fun c hc => ?_, fun k => ?_, fun k => ?_, fun k hk => ?_,
    fun k hk => ?_⟩
  · rw [segmentFree_pages] at hq
    obtain ⟨ht, hj, hok⟩ := hi.queued t j q hq
    have hne : segmentOf q ≠ n := fun heq =>
      hok.page_ne_zero (hi.page_zero_of_unused hn hused heq)
    exact ⟨ht, hj, hok.frame (by rw [segmentFree_sas_ne hne]) (by rw [hpage])
      (fun _ _ => .inl rfl) fun _ _ _ => rfl⟩
  · rw [segmentFree_pages]
    exact hi.queue_nodup t j
  · rw [segmentFree_pages] at hq hq'
    exact hi.queue_unique t j t' j' q hq hq'
  · rw [hpage]
    by_cases htu : t = u
    · subst htu
      rw [segmentFree_freePage_self, List.mem_filter, decide_eq_true_eq] at hq
      rw [segmentFree_sas_ne hq.2]
      exact hi.freePage t q hq.1
    · rw [segmentFree_freePage_ne htu] at hq
      have hold := hi.freePage t q hq
      have hne : segmentOf q ≠ n := by
        rintro rfl
        exact htu (hold.2.1.symm.trans h)
      rw [segmentFree_sas_ne hne]
      exact hold
  · by_cases htu : t = u
    · subst htu
      rw [segmentFree_freePage_self]
      exact (hi.free_nodup t).filter _
    · rw [segmentFree_freePage_ne htu]
      exact hi.free_nodup t
  · rw [hpage]
    refine (hi.inUse q).imp_right fun ⟨t, j, hmem⟩ => ⟨t, j, ?_⟩
    rw [segmentFree_pages]
    exact hmem
  · rw [hpage] at hc
    exact hi.unplaced c hc
  · by_cases hk : k = n
    · rw [hk, segmentFree_segment_self, segmentFree_sas_self]
    · rw [segmentFree_segment_ne hk, segmentFree_sas_ne hk]
      exact hi.threadId k
  · by_cases hk : k = n
    · rw [hk, segmentFree_info]
      exact hi.normal n
    · rw [segmentFree_sas_ne hk]
      exact hi.normal k
  · obtain ⟨_, heq⟩ := howned k hk
    rw [heq] at hk ⊢
    exact hi.threadFree k hk
  · obtain ⟨hkn, heq⟩ := howned k hk
    rw [heq] at hk
    rw [segmentFree_segment_ne hkn, hi.segmentUsed k hk]
    refine congrArg Finset.card (pagesInUse_congr fun q _ => ?_).symm
    rw [hpage]

theorem Move.inv (h : Move u m m') (hi : Inv m) : Inv m' := by
  cases h with
  | seize h => exact hi.seize h
  | write h | use h => exact hi.setNext (by rw [h]; nofun) (by rw [h]; nofun) (by rw [h]; nofun)
  | push h hn => exact hi.push h hn
  | grab h hu => exact hi.grab (h ▸ hu)
  | freeLocal h hq => exact hi.freeLocal h hq
  | collect hq => exact hi.collectLocal hq
  | pop hq hne => exact hi.popFree hq hne
  | handOut h hq hsp => exact hi.handOut h hq hsp
  | segmentAlloc h hu => exact hi.segmentAlloc h hu
  | pageFresh hlt h => exact hi.pageFresh hlt h
  | pageFree hq h => exact hi.pageFree hq h
  | segmentFree h hu hused => exact hi.segmentFree h hu hused

end ShmPcc.CxlAlloc
