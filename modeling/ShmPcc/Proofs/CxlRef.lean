import ShmPcc.Ref.CxlRef

/-!
# The counts of root references

A root reference in use counts the live handles on it, and it is in use as long as
there are any. The calls change which root reference a handle counts for and the count
of one root reference; each of them is one of the changes `Counts` follows. What
`test_free` does is about objects, and leaves handles and counts of root references
alone.

This is so for programs that let moved-from handles alone. A move leaves its source as
it is, so the destructor of the source takes back what it has given away; and an
assignment forgets what the handle had before.
-/

namespace ShmPcc.CxlRef

open Function

variable {roots : List Nat} {m m' : Mem} {fuel h src t : Nat}

/-! ## What objects do not change -/

/-- `test_free` changes what `unlink_reference` changes. -/
theorem testFree_unlinks {R : Mem → Mem → Prop} (hrefl : ∀ m, R m m)
    (htrans : ∀ {m m' m''}, R m m' → R m' m'' → R m m'')
    (hunlink : ∀ m ref refed, R m (m.unlinkReference ref refed)) : ∀ fuel,
    (∀ ref m m', m.testFree fuel ref = some m' → R m m') ∧
      ∀ refed i m m', m.testFreeFrom fuel refed i = some m' → R m m' := by
  intro fuel
  induction fuel with
  | zero => exact ⟨nofun, nofun⟩
  | succ fuel ih =>
    constructor
    · intro ref m m' h
      rw [Mem.testFree] at h
      split at h
      · cases h
        exact hrefl m
      · split at h
        · cases h
          exact hunlink ..
        · obtain ⟨m₁, hloop, rfl⟩ := Option.map_eq_some_iff.mp h
          exact htrans (ih.2 _ _ _ _ hloop) (hunlink ..)
    · intro refed i m m' h
      rw [Mem.testFreeFrom] at h
      split at h
      · obtain ⟨m₁, hfree, hloop⟩ := Option.bind_eq_some_iff.mp h
        exact htrans (ih.1 _ _ _ hfree) (ih.2 _ _ _ _ hloop)
      · cases h
        exact hrefl m

/-- Handles and root references are the same, but for `pptr`. -/
structure SameRoots (m m' : Mem) : Prop where
  inUse : ∀ t, (m'.root t).inUse = (m.root t).inUse
  refCnt : ∀ t, (m'.root t).refCnt = (m.root t).refCnt
  freeRoots : m'.freeRoots = m.freeRoots
  handle : m'.handle = m.handle
  moved : m'.moved = m.moved

namespace SameRoots

theorem refl (m : Mem) : SameRoots m m := ⟨fun _ => rfl, fun _ => rfl, rfl, rfl, rfl⟩

theorem trans {m'' : Mem} (h : SameRoots m m') (h' : SameRoots m' m'') : SameRoots m m'' :=
  ⟨fun t => (h'.inUse t).trans (h.inUse t), fun t => (h'.refCnt t).trans (h.refCnt t),
    h'.freeRoots.trans h.freeRoots, h'.handle.trans h.handle, h'.moved.trans h.moved⟩

theorem write (m : Mem) (v : Nat) (ref : Slot) : SameRoots m (m.write v ref) := by
  cases ref with
  | pptr t =>
    refine ⟨fun t' => ?_, fun t' => ?_, rfl, rfl, rfl⟩
    · by_cases ht : t' = t <;> simp [Mem.write, Mem.setRoot, ht]
    · by_cases ht : t' = t <;> simp [Mem.write, Mem.setRoot, ht]
  | embedded o i => exact ⟨fun _ => rfl, fun _ => rfl, rfl, rfl, rfl⟩

theorem unlinkReference (m : Mem) (ref : Slot) (refed : Nat) :
    SameRoots m (m.unlinkReference ref refed) := by
  rw [Mem.unlinkReference]
  have hwrite := write (m.setObj refed { m.obj refed with refCnt := dec (m.obj refed).refCnt }) 0 ref
  split
  · exact ⟨hwrite.inUse, hwrite.refCnt, hwrite.freeRoots, hwrite.handle, hwrite.moved⟩
  · exact ⟨hwrite.inUse, hwrite.refCnt, hwrite.freeRoots, hwrite.handle, hwrite.moved⟩

theorem testFree {ref : Slot} (h : m.testFree fuel ref = some m') : SameRoots m m' :=
  (testFree_unlinks (fun m => refl m) trans unlinkReference fuel).1 ref m m' h

end SameRoots

/-! ## The invariant -/

/-- The count of a root reference in use, 0 for the others. -/
def Mem.count (m : Mem) (t : Nat) : Nat := if (m.root t).inUse then (m.root t).refCnt else 0

structure Inv (roots : List Nat) (m : Mem) : Prop where
  counts : Counts 0 m.counted m.count
  pos : ∀ t, (m.root t).inUse = true → 0 < (m.root t).refCnt ∧ (m.root t).refCnt < 2 ^ 16
  mem : ∀ t, (m.root t).inUse = true → t ∈ roots
  free : ∀ t, t ∈ m.freeRoots ↔ t ∈ roots ∧ (m.root t).inUse = false
  nodup : m.freeRoots.Nodup
  tbr : ∀ h r, m.handle h = some r → m.moved h = false → r.tbr ≠ 0

theorem Mem.counted_eq {r : Handle} (h : m.handle src = some r) (hmoved : m.moved src = false) :
    m.counted src = r.tbr := by
  simp [Mem.counted, h, hmoved]

theorem Mem.counted_moved (h : m.moved src = true) : m.counted src = 0 := by
  rw [Mem.counted]
  split <;> simp [h]

theorem Mem.counted_none (h : m.handle src = none) : m.counted src = 0 := by
  simp [Mem.counted, h]

theorem Mem.counted_setHandle (m : Mem) (h : Nat) (r : Option Handle) :
    (m.setHandle h r).counted = update m.counted h ((r.map Handle.tbr).getD 0) := by
  funext i
  by_cases hi : i = h
  · subst hi
    cases r <;> simp [Mem.counted, Mem.setHandle]
  · simp [Mem.counted, Mem.setHandle, hi]

theorem Mem.counted_setMoved (m : Mem) (h : Nat) :
    (m.setMoved h).counted = update m.counted h 0 := by
  funext i
  by_cases hi : i = h
  · subst hi
    rw [Mem.counted_moved (by simp [Mem.setMoved]), update_self]
  · simp [Mem.counted, Mem.setMoved, hi]

theorem Mem.count_setRoot (m : Mem) (t : Nat) (r : RootRef) :
    (m.setRoot t r).count = update m.count t (if r.inUse then r.refCnt else 0) := by
  funext i
  by_cases hi : i = t
  · subst hi
    simp [Mem.count, Mem.setRoot]
  · simp [Mem.count, Mem.setRoot, hi]

theorem Mem.count_of_inUse (h : (m.root t).inUse = true) : m.count t = (m.root t).refCnt := if_pos h

theorem SameRoots.inv (hs : SameRoots m m') (hinv : Inv roots m) : Inv roots m' := by
  have hcounted : m'.counted = m.counted := by
    funext i
    simp only [Mem.counted, hs.handle, hs.moved]
  have hcount : m'.count = m.count := by
    funext t
    simp only [Mem.count, hs.inUse, hs.refCnt]
  refine ⟨?_, fun t => ?_, fun t => ?_, fun t => ?_, ?_, ?_⟩
  · rw [hcounted, hcount]
    exact hinv.counts
  · rw [hs.inUse, hs.refCnt]
    exact hinv.pos t
  · rw [hs.inUse]
    exact hinv.mem t
  · rw [hs.inUse, hs.freeRoots]
    exact hinv.free t
  · rw [hs.freeRoots]
    exact hinv.nodup
  · rw [hs.handle, hs.moved]
    exact hinv.tbr

namespace Inv

theorem inUse (hinv : Inv roots m) (hi : m.counted h = t) (ht : t ≠ 0) :
    (m.root t).inUse = true := by
  have hpos := hinv.counts.pos ht hi
  by_contra hne
  rw [Mem.count, if_neg hne] at hpos
  exact absurd hpos (Nat.lt_irrefl 0)

/-- A call changes one root reference, and what handles count for as that one needs it. -/
theorem setRoot (hinv : Inv roots m) {r : RootRef} (hroot : m'.root = update m.root t r)
    (hcounts : Counts 0 m'.counted (update m.count t (if r.inUse then r.refCnt else 0)))
    (huse : r.inUse = true → (0 < r.refCnt ∧ r.refCnt < 2 ^ 16) ∧ t ∈ roots)
    (hfree : ∀ x, x ∈ m'.freeRoots ↔ if x = t then t ∈ roots ∧ r.inUse = false else x ∈ m.freeRoots)
    (hnodup : m'.freeRoots.Nodup)
    (htbr : ∀ h r, m'.handle h = some r → m'.moved h = false → r.tbr ≠ 0) : Inv roots m' := by
  have hcount : m'.count = update m.count t (if r.inUse then r.refCnt else 0) := by
    rw [← Mem.count_setRoot]
    funext x
    rw [Mem.count, Mem.count, hroot]
    rfl
  refine ⟨hcount ▸ hcounts, fun x => ?_, fun x => ?_, fun x => ?_, hnodup, htbr⟩
  all_goals
    rw [hroot]
    by_cases hx : x = t
  · rw [hx, update_self]
    exact fun h => (huse h).1
  · rw [update_of_ne hx]
    exact hinv.pos x
  · rw [hx, update_self]
    exact fun h => (huse h).2
  · rw [update_of_ne hx]
    exact hinv.mem x
  · rw [hfree x, if_pos hx, hx, update_self]
  · rw [hfree x, if_neg hx, update_of_ne hx]
    exact hinv.free x

theorem tbr_setHandle (hinv : Inv roots m) (h : Nat) {r : Option Handle}
    (hr : ∀ x, r = some x → x.tbr ≠ 0) :
    ∀ i x, (m.setHandle h r).handle i = some x → (m.setHandle h r).moved i = false → x.tbr ≠ 0 := by
  intro i x hx hm
  by_cases hi : i = h
  · subst hi
    exact hr x (by simpa [Mem.setHandle] using hx)
  · simp only [Mem.setHandle, update_of_ne hi] at hx hm
    exact hinv.tbr i x hx hm

theorem alloc (hinv : Inv roots m) (hzero : 0 ∉ roots) (ht : t ∈ m.freeRoots)
    (hh : m.handle h = none) (pptr data : Nat)
    (hroot : m'.root = update m.root t ⟨pptr, true, 1⟩)
    (hfree : m'.freeRoots = m.freeRoots.erase t)
    (hhandle : m'.handle = (m.setHandle h (some ⟨t, data⟩)).handle)
    (hmoved : m'.moved = (m.setHandle h (some ⟨t, data⟩)).moved) : Inv roots m' := by
  obtain ⟨hmem, hunused⟩ := (hinv.free t).mp ht
  have ht0 : t ≠ 0 := fun h0 => hzero (h0 ▸ hmem)
  have hcounts := hinv.counts.add ht0 (Mem.counted_none hh)
  rw [show m.count t = 0 by simp [Mem.count, hunused]] at hcounts
  have hcounted : m'.counted = update m.counted h t := by
    rw [show m'.counted = (m.setHandle h (some ⟨t, data⟩)).counted by
      funext i; simp only [Mem.counted, hhandle, hmoved], Mem.counted_setHandle]
    rfl
  refine hinv.setRoot hroot (hcounted ▸ hcounts) (fun _ => ⟨by simp, hmem⟩) (fun x => ?_) ?_ ?_
  · rw [hfree, hinv.nodup.mem_erase_iff]
    by_cases hx : x = t <;> simp [hx]
  · rw [hfree]
    exact hinv.nodup.erase t
  · rw [hhandle, hmoved]
    exact hinv.tbr_setHandle h fun x hx => by cases hx; exact ht0

theorem copy (hinv : Inv roots m) {r : Handle} (hsrc : m.handle src = some r)
    (hmoved : m.moved src = false) (hh : m.counted h = 0)
    (hsmall : (m.root (m.counted src)).refCnt + 1 < 2 ^ 16) :
    Inv roots ((m.setHandle h (some r)).retain r.tbr) := by
  have htbr : r.tbr ≠ 0 := hinv.tbr src r hsrc hmoved
  have hcounted := Mem.counted_eq hsrc hmoved
  have huse := hinv.inUse hcounted htbr
  rw [hcounted] at hsmall
  have hinc : inc (m.root r.tbr).refCnt = (m.root r.tbr).refCnt + 1 := Nat.mod_eq_of_lt hsmall
  rw [Mem.retain, if_pos htbr]
  refine hinv.setRoot rfl ?_ (fun _ => ⟨?_, hinv.mem _ huse⟩) (fun x => ?_) hinv.nodup ?_
  · show Counts 0 (m.setHandle h (some r)).counted _
    rw [Mem.counted_setHandle]
    have hadd := hinv.counts.add htbr hh
    rw [Mem.count_of_inUse huse] at hadd
    simp only [Mem.setHandle, huse, if_true, hinc]
    exact hadd
  · show 0 < inc (m.root r.tbr).refCnt ∧ inc (m.root r.tbr).refCnt < 2 ^ 16
    omega
  · by_cases hx : x = r.tbr
    · rw [if_pos hx, hx]
      exact hinv.free r.tbr
    · rw [if_neg hx]
      rfl
  · exact hinv.tbr_setHandle h fun x hx => by cases hx; exact htbr

/-- A handle that counts for nothing takes the value of another one, which then counts
for nothing. -/
theorem move (hinv : Inv roots m) {r : Handle} (hsrc : m.handle src = some r)
    (hmoved : m.moved src = false) (hh : m.counted h = 0) :
    Inv roots ((m.setHandle h (some r)).setMoved src) := by
  have htbr : r.tbr ≠ 0 := hinv.tbr src r hsrc hmoved
  have hcounted := Mem.counted_eq hsrc hmoved
  refine ⟨?_, hinv.pos, hinv.mem, hinv.free, hinv.nodup, ?_⟩
  · rw [Mem.counted_setMoved, Mem.counted_setHandle]
    exact hinv.counts.move htbr hcounted hh
  · intro i x hx hm
    by_cases hi : i = src
    · simp [Mem.setMoved, hi] at hm
    · refine hinv.tbr_setHandle h (fun x hx => ?_) i x hx ?_
      · cases hx
        exact htbr
      · simpa [Mem.setMoved, hi] using hm

theorem drop (hinv : Inv roots m) {r : Handle} (hh : m.handle h = some r)
    (hmoved : m.moved h = false) (hlast : (m.root r.tbr).refCnt ≠ 1) :
    Inv roots ((m.setRoot r.tbr { m.root r.tbr with refCnt := (m.root r.tbr).refCnt - 1 }).setHandle h
      none) := by
  have htbr : r.tbr ≠ 0 := hinv.tbr h r hh hmoved
  have hcounted := Mem.counted_eq hh hmoved
  have huse := hinv.inUse hcounted htbr
  have hpos := hinv.pos _ huse
  refine hinv.setRoot rfl ?_ (fun _ => ⟨?_, hinv.mem _ huse⟩) (fun x => ?_) hinv.nodup ?_
  · rw [Mem.counted_setHandle]
    have hdrop := hinv.counts.drop htbr hcounted
    rw [Mem.count_of_inUse huse] at hdrop
    simp only [huse, if_true]
    exact hdrop
  · show 0 < (m.root r.tbr).refCnt - 1 ∧ (m.root r.tbr).refCnt - 1 < 2 ^ 16
    omega
  · by_cases hx : x = r.tbr
    · rw [if_pos hx, hx]
      exact hinv.free r.tbr
    · rw [if_neg hx]
      rfl
  · exact hinv.tbr_setHandle h nofun

theorem release (hinv : Inv roots m) {r : Handle} (hh : m.handle h = some r)
    (hmoved : m.moved h = false) (hlast : (m.root r.tbr).refCnt = 1) (link : Nat) :
    Inv roots ((m.freeRoot r.tbr link).setHandle h none) := by
  have htbr : r.tbr ≠ 0 := hinv.tbr h r hh hmoved
  have hcounted := Mem.counted_eq hh hmoved
  have huse := hinv.inUse hcounted htbr
  have hnot : r.tbr ∉ m.freeRoots := by
    intro hmem
    rw [((hinv.free _).mp hmem).2] at huse
    cases huse
  refine hinv.setRoot rfl ?_ nofun (fun x => ?_) ?_ ?_
  · rw [Mem.counted_setHandle]
    have hdrop := hinv.counts.drop htbr hcounted
    rw [Mem.count_of_inUse huse, hlast] at hdrop
    exact hdrop
  · show x ∈ r.tbr :: m.freeRoots ↔ _
    by_cases hx : x = r.tbr
    · simp [hx, hinv.mem _ huse]
    · simp [hx]
  · exact List.nodup_cons.mpr ⟨hnot, hinv.nodup⟩
  · exact hinv.tbr_setHandle h nofun

end Inv

/-! ## Calls -/

theorem dec_of_pos {x : Nat} (h0 : 0 < x) (h : x < 2 ^ 16) : dec x = x - 1 := by
  rw [dec]
  omega

/-- The object goes first, and the count is 0 meanwhile. -/
theorem SameRoots.release {m₁ : Mem} (link : Nat)
    (hs : SameRoots (m.setRoot t { m.root t with refCnt := 0 }) m₁) :
    SameRoots ((m.freeRoot t link).setHandle h none) ((m₁.freeRoot t link).setHandle h none) := by
  refine ⟨fun x => ?_, fun x => ?_, ?_, ?_, ?_⟩
  · by_cases hx : x = t
    · simp [Mem.setHandle, Mem.freeRoot, Mem.setRoot, hx]
    · have hsame := hs.inUse x
      simpa [Mem.setHandle, Mem.freeRoot, Mem.setRoot, hx] using hsame
  · by_cases hx : x = t
    · simp [Mem.setHandle, Mem.freeRoot, Mem.setRoot, hx]
    · have hsame := hs.refCnt x
      simpa [Mem.setHandle, Mem.freeRoot, Mem.setRoot, hx] using hsame
  · simp [Mem.setHandle, Mem.freeRoot, hs.freeRoots, Mem.setRoot]
  · simp [Mem.setHandle, Mem.freeRoot, Mem.setRoot, hs.handle]
  · simp [Mem.setHandle, Mem.freeRoot, Mem.setRoot, hs.moved]

theorem Inv.destroy {r : Handle} {link : Nat} (hinv : Inv roots m) (hh : m.handle h = some r)
    (hmoved : m.moved h = false) (hd : m.destroy fuel h r link = some m') : Inv roots m' := by
  have htbr : r.tbr ≠ 0 := hinv.tbr h r hh hmoved
  have huse := hinv.inUse (Mem.counted_eq hh hmoved) htbr
  obtain ⟨hpos, hsmall⟩ := hinv.pos _ huse
  rw [Mem.destroy, if_neg (fun h0 => htbr h0.1)] at hd
  simp only [dec_of_pos hpos hsmall] at hd
  split at hd
  · cases hd
    exact hinv.drop hh hmoved (by omega)
  · next hlast =>
    have hone : (m.root r.tbr).refCnt = 1 := by omega
    rw [hone] at hd
    obtain ⟨m₁, htest, rfl⟩ := Option.map_eq_some_iff.mp hd
    exact ((SameRoots.testFree htest).release link).inv (hinv.release hh hmoved hone link)

theorem Inv.step {op : Op} (hinv : Inv roots m) (hzero : 0 ∉ roots) (hop : careful m op = true)
    (hstep : step fuel op m = some m') : Inv roots m' := by
  cases op with
  | cxlMalloc h t b k =>
    simp only [CxlRef.step] at hstep
    split at hstep
    · next hpre =>
      cases hstep
      refine hinv.alloc hzero hpre.2.1 hpre.1 b (b + sizeofCXLObj) ?_ rfl rfl rfl
      simp [Mem.cxlMalloc, Mem.blockToTbr, Mem.linkBlockToTbr, Mem.blockToCxlobj, Mem.setRoot,
        Mem.setHandle, Mem.setObj, inc]
    · cases hstep
  | getRef h t offset =>
    simp only [CxlRef.step] at hstep
    split at hstep
    · next hpre =>
      cases hstep
      have hpptr : (((m.blockToTbr t).linkReference (.pptr t) offset).root t).pptr = offset := by
        simp [Mem.linkReference, Mem.write, Mem.setRoot]
      refine hinv.alloc hzero hpre.2 hpre.1 offset (offset + sizeofCXLObj) ?_ rfl ?_ rfl
      · simp [Mem.getRef, Mem.blockToTbr, Mem.linkReference, Mem.write, Mem.setRoot, Mem.setHandle,
          Mem.setObj, inc]
      · simp only [Mem.getRef, Mem.setHandle, hpptr]
        rfl
    · cases hstep
  | copyConstruct h src =>
    simp only [careful, Bool.and_eq_true, Bool.not_eq_true', decide_eq_true_eq] at hop
    simp only [CxlRef.step] at hstep
    split at hstep
    · next r hh hsrc =>
      cases hstep
      exact hinv.copy hsrc hop.1 (Mem.counted_none hh) hop.2
    · cases hstep
  | moveConstruct h src =>
    simp only [careful, Bool.not_eq_true'] at hop
    simp only [CxlRef.step] at hstep
    split at hstep
    · next r hh hsrc =>
      cases hstep
      exact hinv.move hsrc hop (Mem.counted_none hh)
    · cases hstep
  | copyAssign h src =>
    simp only [careful, Bool.and_eq_true, Bool.not_eq_true', decide_eq_true_eq] at hop
    simp only [CxlRef.step] at hstep
    split at hstep
    · next r hh hsrc =>
      cases hstep
      exact hinv.copy hsrc hop.1.2 (Mem.counted_moved hop.1.1) hop.2
    · cases hstep
  | moveAssign h src =>
    simp only [careful, Bool.and_eq_true, Bool.not_eq_true'] at hop
    simp only [CxlRef.step] at hstep
    split at hstep
    · next r hh hsrc =>
      cases hstep
      exact hinv.move hsrc hop.2 (Mem.counted_moved hop.1)
    · cases hstep
  | destroy h link =>
    simp only [careful, Bool.not_eq_true'] at hop
    simp only [CxlRef.step] at hstep
    split at hstep
    · next r hh => exact hinv.destroy hh hop hstep
    · cases hstep

/-! ## Runs -/

section Runs

variable {s s' : Sys Mem Unit}

theorem inv_of_reach (h : (machine fuel).Reach carefully (fresh roots) s) :
    Inv roots s.mem ∧ 0 ∉ roots := by
  refine h.ofSteps_invariant (G := fun m => Inv roots m ∧ 0 ∉ roots) ?_ ?_
  · intro s hs
    obtain ⟨hnodup, hzero, hfree, hunused, hhandle, hmoved, hembedded⟩ := hs
    have hcounted : ∀ i, s.mem.counted i = 0 := fun i => Mem.counted_none (hhandle i)
    have huse : ∀ t, (s.mem.root t).inUse ≠ true := fun t ht => absurd ((hunused t).symm.trans ht) Bool.false_ne_true
    refine ⟨⟨⟨?_, fun t ht => ?_⟩, ?_, ?_, fun t => ?_, hfree ▸ hnodup, ?_⟩, hzero⟩
    · simp [Sparse, hcounted]
    · rw [tally_eq_zero fun i => hcounted i ▸ Ne.symm ht, Mem.count, if_neg (huse t)]
    · exact fun t ht => absurd ht (huse t)
    · exact fun t ht => absurd ht (huse t)
    · rw [hfree]
      exact (and_iff_left (hunused t)).symm
    · intro i r hr
      rw [hhandle i] at hr
      cases hr
  · intro s t op m h hop hstep
    exact ⟨h.1.step h.2 hop hstep, h.2⟩

/-- No call sets an embedded reference, so `test_free` goes down one object only. -/
def Mem.Flat (m : Mem) : Prop := ∀ o i, m.embedded o i = 0

theorem Mem.Flat.unlinkReference {ref : Slot} {refed : Nat} (hflat : m.Flat) :
    (m.unlinkReference ref refed).Flat := by
  have hwrite : ∀ m' : Mem, m'.Flat → (m'.write 0 ref).Flat := by
    intro m' h o i
    cases ref with
    | pptr t => exact h o i
    | embedded o' i' =>
      by_cases ho : o = o'
      · by_cases hi : i = i' <;> simp [Mem.write, ho, hi, h o' i]
      · simp [Mem.write, ho, h o i]
  rw [Mem.unlinkReference]
  split <;> exact hwrite _ hflat

theorem Mem.Flat.testFreeFrom (hflat : m.Flat) {refed : Nat} :
    ∀ {k i fuel : Nat}, (m.obj refed).embeddedRefCnt ≤ i + k → k + 1 < fuel →
      m.testFreeFrom fuel refed i = some m := by
  intro k
  induction k with
  | zero =>
    intro i fuel hle hfuel
    obtain ⟨fuel, rfl⟩ : ∃ n, fuel = n + 1 := ⟨fuel - 1, by omega⟩
    rw [Mem.testFreeFrom, if_neg (by omega)]
  | succ k ih =>
    intro i fuel hle hfuel
    obtain ⟨fuel, rfl⟩ : ∃ n, fuel = n + 2 := ⟨fuel - 2, by omega⟩
    rw [Mem.testFreeFrom]
    split
    · rw [Mem.testFree, Mem.read, hflat refed i]
      exact ih (by omega) (by omega)
    · rfl

theorem Mem.Flat.testFree (hflat : m.Flat) (ref : Slot) :
    ∃ n, ∀ fuel, n ≤ fuel → (m.testFree fuel ref).isSome := by
  refine ⟨(m.obj (m.read ref)).embeddedRefCnt + 3, fun fuel hfuel => ?_⟩
  obtain ⟨fuel, rfl⟩ : ∃ n, fuel = n + 1 := ⟨fuel - 1, by omega⟩
  rw [Mem.testFree, hflat.testFreeFrom (Nat.zero_add _).ge (by omega)]
  repeat' split
  all_goals rfl

/-- A destructor returns. -/
theorem Mem.Flat.destroy (hflat : m.Flat) (h : Nat) (r : Handle) (link : Nat) :
    ∃ n, ∀ fuel, n ≤ fuel → (m.destroy fuel h r link).isSome := by
  have hflat' : (m.setRoot r.tbr { m.root r.tbr with refCnt := dec (m.root r.tbr).refCnt }).Flat := hflat
  obtain ⟨n, hn⟩ := hflat'.testFree (.pptr r.tbr)
  refine ⟨n, fun fuel hfuel => ?_⟩
  rw [Mem.destroy]
  split
  · rfl
  · dsimp only
    split
    · rfl
    · rw [Option.isSome_map]
      exact hn fuel hfuel

theorem Mem.Flat.step {op : Op} (hflat : m.Flat) (hstep : step fuel op m = some m') : m'.Flat := by
  cases op with
  | destroy h link =>
    simp only [CxlRef.step, Mem.destroy] at hstep
    repeat' split at hstep
    case isFalse.isFalse =>
      obtain ⟨m₁, htest, rfl⟩ := Option.map_eq_some_iff.mp hstep
      have hkeep := (testFree_unlinks (R := fun m m' => m.Flat → m'.Flat) (fun _ => id)
        (fun h h' => h' ∘ h) (fun _ _ _ h => h.unlinkReference) fuel).1 _ _ _ htest
      exact hkeep hflat
    all_goals cases hstep
    all_goals exact hflat
  | _ =>
    simp only [CxlRef.step, Mem.retain] at hstep
    repeat' split at hstep
    all_goals cases hstep
    all_goals exact hflat

theorem Inv.liveHandles_pos (hinv : Inv roots m) (ht : t ≠ 0) :
    0 < m.liveHandles t ↔ (m.root t).inUse = true := by
  rw [Mem.liveHandles, ← hinv.counts.eq t ht, Mem.count]
  split
  · next huse => exact iff_of_true (hinv.pos t huse).1 huse
  · next huse => exact iff_of_false (Nat.lt_irrefl 0) huse

/-- Two blocks for root references and two for objects. -/
def empty : Mem where
  root _ := ⟨0, false, 0⟩
  obj _ := ⟨0, 0⟩
  embedded _ _ := 0
  freeRoots := [16, 32]
  freeObjs := [1024, 2048]
  handle _ := none
  moved _ := false

theorem fresh_empty : fresh [16, 32] ⟨empty, fun _ => ()⟩ :=
  ⟨by decide, by decide, rfl, fun _ => rfl, fun _ => rfl, fun _ => rfl, fun _ _ => rfl⟩

/-- A handle is moved, the source is assigned a copy of another one, and that one goes. -/
def reassigned : List (Act Op) :=
  [.call 0 (.cxlMalloc 0 16 1024 1), .call 0 (.moveConstruct 1 0), .call 0 (.getRef 2 32 1024),
    .call 0 (.copyAssign 0 2), .call 0 (.destroy 2 0)]

theorem reassigned_run : ((machine 5).runUnder carefully reassigned ⟨empty, fun _ => ()⟩).any fun s =>
    (s.mem.root 32).inUse = true ∧ (s.mem.root 32).refCnt = 1 ∧ (s.mem.root 16).inUse = true ∧
      (s.mem.root 16).refCnt = 1 ∧ (s.mem.obj 1024).refCnt = 2 := by
  decide +kernel

/-- A handle is moved and its source destroyed. -/
def movedFrom : List (Act Op) :=
  [.call 0 (.cxlMalloc 0 16 1024 0), .call 0 (.moveConstruct 1 0), .call 0 (.destroy 0 0)]

theorem movedFrom_run : ((machine 5).runUnder Machine.free movedFrom ⟨empty, fun _ => ()⟩).any fun s =>
    s.mem.counted 1 = 16 ∧ (s.mem.root 16).inUse = false ∧ (s.mem.obj 1024).refCnt = 0 := by
  decide +kernel

/-- Two handles on different objects. -/
def twoObjects : List (Act Op) :=
  [.call 0 (.cxlMalloc 0 16 1024 0), .call 0 (.cxlMalloc 1 32 2048 0)]

theorem twoObjects_run : ((machine 5).runUnder carefully twoObjects ⟨empty, fun _ => ()⟩).any fun s =>
    s.mem.handle 0 = some ⟨16, 1024 + 24⟩ ∧ s.mem.handle 1 = some ⟨32, 2048 + 24⟩ ∧
      s.mem.moved 1 = false ∧ s.mem.root 32 = ⟨2048, true, 1⟩ := by
  decide +kernel

end Runs

end ShmPcc.CxlRef
