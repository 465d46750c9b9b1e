import ShmPcc.Proofs.CxlAlloc
import ShmPcc.Ref.CxlLayout

/-!
# Size classes

`cxl_page_queue` computes the index of a queue from a size, `thread_init` gives each
queue the size of its blocks, and the array has 66 queues. The three fit together as
long as the index stays in the array, which nobody checks: for 1001 bytes of data it is
66, where `free_page` lies. Up to 1000 bytes the block that is handed out has room for
the object, and while the block is out its page stays in the queue it came from, which
is the one `cxl_free` computes from the page.
-/

namespace ShmPcc.CxlAlloc

open CxlLayout (cxlBinSize redoCachelineCnt sizeofPageQueue)

variable {m m' : Mem} {u t i q b c : Nat}

/-! ## The index -/

theorem pageQueue_lt_iff {dataSize : Nat} :
    pageQueue false (dataSize + sizeofCXLObj) < cxlBinSize ↔ dataSize ≤ 1000 := by
  simp only [pageQueue, Bool.false_eq_true, false_and, if_false, sizeofCXLObj, cxlBinSize]
  omega

theorem queueBlockSize_pageQueue {size : Nat} (h : 0 < size) :
    2 ≤ pageQueue false size ∧ size ≤ queueBlockSize (pageQueue false size) ∧
      queueBlockSize (pageQueue false size) < size + 16 := by
  simp only [pageQueue, Bool.false_eq_true, false_and, if_false, queueBlockSize]
  rw [if_neg (by omega), if_neg (by omega)]
  omega

/-! ## Blocks side by side -/

theorem Inv.isBlock_of_placed (hi : Inv m) (hb : m.place b ≠ .none) :
    isBlock (m.page (pageOf b)).blockSize b = true := by
  obtain ⟨t, i, hq⟩ := hi.queued_of_placed hb
  exact ((hi.queued t i _ hq).2.2.placed b rfl).mp hb

theorem page_end_le (h : pageOf b < pageOf c) : (pageOf b + 1) * pageSize ≤ c := by
  calc (pageOf b + 1) * pageSize ≤ pageOf c * pageSize := Nat.mul_le_mul_right _ h
    _ ≤ c := Nat.div_mul_le_self ..

theorem isBlock_end {bs : Nat} (hb : isBlock bs b = true) : b + bs ≤ (pageOf b + 1) * pageSize := by
  obtain ⟨k, hk, hbk⟩ := isBlock_iff.mp ⟨rfl, hb⟩
  have hle : (k + 1) * bs ≤ pageSize :=
    Nat.le_trans (Nat.mul_le_mul_right _ hk) (Nat.div_mul_le_self ..)
  calc b + bs = pageOf b * pageSize + (k + 1) * bs := by
        rw [Nat.succ_mul, ← Nat.add_assoc, ← hbk]
    _ ≤ pageOf b * pageSize + pageSize := Nat.add_le_add_left hle _
    _ = (pageOf b + 1) * pageSize := (Nat.succ_mul ..).symm

theorem Inv.block_end_le (hi : Inv m) (hb : m.place b ≠ .none) (hc : m.place c ≠ .none)
    (hbc : b < c) : b + (m.page (pageOf b)).blockSize ≤ c := by
  have hblock := hi.isBlock_of_placed hb
  have hpages : pageOf b ≤ pageOf c := Nat.div_le_div_right (Nat.le_of_lt hbc)
  obtain hlt | heq := Nat.lt_or_eq_of_le hpages
  · exact Nat.le_trans (isBlock_end hblock) (page_end_le hlt)
  · have hblock' := hi.isBlock_of_placed hc
    rw [← heq] at hblock'
    obtain ⟨k, _, hbk⟩ := isBlock_iff.mp ⟨rfl, hblock⟩
    obtain ⟨k', _, hck⟩ := isBlock_iff.mp ⟨heq.symm, hblock'⟩
    have hk : k + 1 ≤ k' := by
      by_contra hk
      have := Nat.mul_le_mul_right (m.page (pageOf b)).blockSize (show k' ≤ k by omega)
      omega
    have := Nat.mul_le_mul_right (m.page (pageOf b)).blockSize hk
    rw [Nat.succ_mul] at this
    omega

/-! ## The queue of a page -/

theorem collectLocal_tls : (m.collectLocal q).tls = m.tls := by
  rw [Mem.collectLocal]
  split <;> rfl

theorem takeBlock_tls {req : Req} : (takeBlock u q m req).2.tls = m.tls := by
  cases req <;> rfl

/-- A page stays in its queue, unless it is given back. -/
theorem run_queue {segments : Nat} {pc pc' : Pc} (h : run segments u pc m = some (pc', m'))
    (hi : Inv m) (hat : pc.Holds u m) (hc : (m.place b).counted = true)
    (hq : pageOf b ∈ (m.tls t).pages i) : pageOf b ∈ (m'.tls t).pages i := by
  cases pc with
  | idle => cases h
  | crashed => cases h
  | find req | grabCas req q rest info | spread req q rest tail | free special b | pushLoad b
  | pushCas b info =>
    simp only [run] at h
    split at h <;> cases h <;> exact hq
  | scan req rest => cases rest <;> cases h <;> exact hq
  | peek req q rest =>
    cases h
    exact hq
  | grabLoad req q rest =>
    cases h
    exact hq
  | pick req q rest =>
    cases h
    rw [collectLocal_tls]
    exact hq
  | fresh req =>
    simp only [run] at h
    split at h
    · cases h
      exact hq
    · cases h
      exact mem_pageFresh_pages.mpr (.inr hq)
  | segmentCas req count =>
    simp only [run] at h
    split at h
    · split at h
      · cases h
        rw [segmentAlloc_pages]
        exact hq
      · cases h
        exact hq
    · cases h
      exact hq
  | take req q =>
    have hm : m' = (takeBlock u q m req).2 := by
      rw [show takeBlock u q m req = (pc', m') from Option.some.inj h]
    rw [hm, takeBlock_tls]
    exact hq
  | releasePage q j =>
    cases h
    obtain ⟨_, hq', hused⟩ := hat.2
    -- the page that goes has no block out
    have hne : pageOf b ≠ q := by
      intro heq
      have hnot := ((hi.queued u j q hq').2.2).not_counted hused heq
      rw [hc] at hnot
      cases hnot
    exact (mem_pageFree_pages hi hq').mpr ⟨hq, hne⟩
  | releaseSegment n =>
    cases h
    rw [segmentFree_pages]
    exact hq
  | pushFirst b =>
    cases h
    exact hq

theorem call_queue {op : Op} {pc pc' : Pc} (h : call u op pc m = some (pc', m'))
    (hq : q ∈ (m.tls t).pages i) : q ∈ (m'.tls t).pages i := by
  cases pc with
  | idle =>
    simp only [call] at h
    split at h
    · cases h
    · cases op <;> dsimp only at h
      case msgQueueAlloc =>
        cases h
        exact hq
      all_goals
        split at h <;> cases h
        exact hq
  | _ => cases h

/-! ## Objects -/

/-- The block `b` of an object with `dataSize` bytes of data, in queue `i` of thread `u`. -/
structure ObjectIn (m : Mem) (u dataSize i b : Nat) : Prop where
  queue : pageOf b ∈ (m.tls u).pages i
  size : (m.page (pageOf b)).blockSize = queueBlockSize i
  room : dataSize + sizeofCXLObj ≤ queueBlockSize i
  tight : queueBlockSize i < dataSize + sizeofCXLObj + 16
  inPage : b + sizeofCXLObj + dataSize ≤ (pageOf b + 1) * pageSize
  next : ∀ c, m.place c ≠ .none → b < c → b + sizeofCXLObj + dataSize ≤ c
  /-- What `cxl_free` computes. -/
  again : pageQueue false (m.page (pageOf b)).blockSize = i

theorem Inv.objectIn (hi : Inv m) {dataSize : Nat}
    (hq : pageOf b ∈ (m.tls u).pages (pageQueue false (dataSize + sizeofCXLObj)))
    (hb : isBlock (queueBlockSize (pageQueue false (dataSize + sizeofCXLObj))) b = true) :
    ObjectIn m u dataSize (pageQueue false (dataSize + sizeofCXLObj)) b := by
  obtain ⟨htwo, hroom, htight⟩ :=
    queueBlockSize_pageQueue (show 0 < dataSize + sizeofCXLObj by simp [sizeofCXLObj])
  have hok := (hi.queued u _ _ hq).2.2
  have hplaced : m.place b ≠ .none := (hok.placed b rfl).mpr (by rw [hok.size]; exact hb)
  refine ⟨hq, hok.size, hroom, htight, ?_, fun c hc hbc => ?_, ?_⟩
  · have := isBlock_end hb
    omega
  · have := hi.block_end_le hplaced hc hbc
    rw [hok.size] at this
    omega
  · have hfalse : decide (pageQueue false (dataSize + sizeofCXLObj) < 2) = false := by
      rw [decide_eq_false_iff_not]
      omega
    have := pageQueue_queueBlockSize (i := pageQueue false (dataSize + sizeofCXLObj))
    rwa [hfalse, ← hok.size] at this

/-- The block has not come back to the lists of its page. -/
def out (b : Nat) (s : Sys Mem Pc) (_ : Act Op) : Prop := (s.mem.place b).counted = true

instance (b : Nat) (s : Sys Mem Pc) (a : Act Op) : Decidable (out b s a) :=
  inferInstanceAs (Decidable (_ = true))

theorem step_queue {segments : Nat} {s s' : Sys Mem Pc} {a : Act Op}
    (hs : (machine segments).step s a = some s')
    (hinv : Machine.Holds Inv (fun u pc m => pc.Holds u m) s) (hout : out b s a)
    (hq : pageOf b ∈ (s.mem.tls t).pages i) : pageOf b ∈ (s'.mem.tls t).pages i := by
  obtain ⟨⟨pc, m⟩, hx, rfl⟩ := Option.map_eq_some_iff.mp hs
  cases a with
  | call u op => exact call_queue hx hq
  | run u => exact run_queue hx hinv.1 (hinv.2 u) hout hq

/-- The queue `cxl_malloc` takes for up to 1000 bytes is in the array and has blocks of
the right size; and from when the block is handed out until it comes back, it has room
for the object and `cxl_free` computes the same queue. -/
theorem malloc_size_class {dataSize : Nat} (hsize : dataSize ≤ 1000) {segments : Nat}
    {s s₁ : Sys Mem Pc} (h : (machine segments).Reach Machine.free fresh s) {tbr : Nat}
    (hloc : s.loc u = .take (.obj (dataSize + sizeofCXLObj) tbr) q)
    (hs : (machine segments).step s (.run u) = some s₁) :
    (2 ≤ pageQueue false (dataSize + sizeofCXLObj) ∧
      pageQueue false (dataSize + sizeofCXLObj) < cxlBinSize) ∧
    ∀ s', (machine segments).Reach (out (s.mem.page q).free) (· = s₁) s' →
      ObjectIn s'.mem u dataSize (pageQueue false (dataSize + sizeofCXLObj)) (s.mem.page q).free := by
  have hinv := holds_of_reach h
  have hat := (hinv.2 u).2
  rw [hloc] at hat
  obtain ⟨hscan, hne⟩ := hat
  have hq : q ∈ (s.mem.tls u).pages (pageQueue false (dataSize + sizeofCXLObj)) :=
    hscan.queue q (.head _)
  have hok := (hinv.1.queued u _ q hq).2.2
  obtain ⟨hpage, hplace⟩ := (hok.free.pop hne).1
  have hblock := hinv.1.isBlock_of_placed (b := (s.mem.page q).free) (by rw [hplace]; nofun)
  rw [hpage, hok.size] at hblock
  refine ⟨⟨(queueBlockSize_pageQueue (by simp [sizeofCXLObj])).1, pageQueue_lt_iff.mpr hsize⟩,
    fun s' hreach => ?_⟩
  -- while the block is out its page stays in the queue
  suffices hJ : (machine segments).Reach Machine.free fresh s' ∧ pageOf (s.mem.page q).free ∈
        (s'.mem.tls u).pages (pageQueue false (dataSize + sizeofCXLObj)) from
    (holds_of_reach hJ.1).1.objectIn hJ.2 hblock
  induction hreach with
  | init heq =>
    subst heq
    refine ⟨h.step (.run u) trivial hs, ?_⟩
    obtain ⟨⟨pc, m⟩, hx, rfl⟩ := Option.map_eq_some_iff.mp hs
    have hm : m = (takeBlock u q s.mem (.obj (dataSize + sizeofCXLObj) tbr)).2 := by
      simp only [Machine.act, machine, hloc, run, Option.some.injEq] at hx
      rw [hx]
    show _ ∈ (m.tls u).pages _
    rw [hm, takeBlock_tls, hpage]
    exact hq
  | step a _ hout hs' ih =>
    exact ⟨ih.1.step a trivial hs', step_queue hs' (holds_of_reach ih.1) hout ih.2⟩

/-- The root reference that thread 1 has when it allocates its first object. -/
def rootRef : Nat := (firstSegment * pagesPerSegment + 1) * pageSize

theorem firstObject_run :
    ((machine 1).runUnder Machine.free (whole 1 (.malloc 8) 9) emptyMemory).any fun s =>
      decide (s.loc 1 = .take (.obj (8 + sizeofCXLObj) rootRef) objectPage ∧
        (s.mem.page objectPage).free = objectBlock 0) &&
      ((machine 1).step s (.run 1)).any fun s₁ =>
        ((machine 1).runUnder (out (objectBlock 0)) [.call 2 (.free false (objectBlock 0))] s₁).any
          fun s' => decide (s'.loc 2 = .free false (objectBlock 0)) := by
  decide +kernel

/-- An object of 8 bytes, when another thread is about to free it. -/
theorem malloc_size_class_firstObject : ∃ s' : Sys Mem Pc, s'.loc 2 = .free false (objectBlock 0) ∧
      (2 ≤ pageQueue false (8 + sizeofCXLObj) ∧ pageQueue false (8 + sizeofCXLObj) < cxlBinSize) ∧
      ObjectIn s'.mem 1 8 (pageQueue false (8 + sizeofCXLObj)) (objectBlock 0) := by
  obtain ⟨s, hs, hrun⟩ := (Option.any_eq_true _ _).mp firstObject_run
  obtain ⟨hat, hrun⟩ := Bool.and_eq_true_iff.mp hrun
  obtain ⟨hloc, hfree⟩ := of_decide_eq_true hat
  obtain ⟨s₁, hs₁, hrun⟩ := (Option.any_eq_true _ _).mp hrun
  obtain ⟨s', hs', hfreeing⟩ := (Option.any_eq_true _ _).mp hrun
  have hreach : (machine 1).Reach Machine.free fresh s :=
    .of_runUnder (.init ⟨fun _ => rfl, fun _ => rfl, fun _ => rfl, fun _ => rfl, fun _ _ => rfl,
      fun _ => rfl, fun _ => rfl⟩) hs
  have hclass := malloc_size_class (show 8 ≤ 1000 by decide) hreach hloc hs₁
  rw [hfree] at hclass
  exact ⟨s', of_decide_eq_true hfreeing, hclass.1, hclass.2 s' (.of_runUnder (.init rfl) hs')⟩

/-- Where `pages[i]` and `free_page` are in a thread-local state. -/
def pagesOffset (i : Nat) : Nat := 64 * redoCachelineCnt + 8 + i * sizeofPageQueue

def freePageOffset : Nat := 64 * redoCachelineCnt + 8 + cxlBinSize * sizeofPageQueue

/-- For 1001 bytes the queue is the list of free pages. -/
theorem malloc_takes_free_page : ¬ pageQueue false (1001 + sizeofCXLObj) < cxlBinSize ∧
      pagesOffset (pageQueue false (1001 + sizeofCXLObj)) = freePageOffset := by
  decide

end ShmPcc.CxlAlloc
