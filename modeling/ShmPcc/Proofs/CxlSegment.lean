import ShmPcc.Ref.CxlSegment

/-!
# Segments have one owner

A thread owns exactly the segments whose allocation state has its id. It is the only one
that writes its id there or takes it away again, so the others need not be looked at:
what they do changes an allocation state from 0 to an id of theirs, or back. What
`cxl_segment_alloc` and `cxl_segment_free` do between these two CASes does not matter for
this, as it leaves the ids alone.
-/

namespace ShmPcc.CxlSegment

open Function

variable {size u w count : Nat} {l l' : Loc} {m m' : Mem}

/-! ## Offsets -/

/-- The segment at `count` lies in the memory. -/
def Fits (size count : Nat) : Prop := segmentsAreaStart + count * segmentSize ≤ size

theorem dataAt_inj {a b : Nat} (ha : 1 ≤ a) (hb : 1 ≤ b) (h : dataAt a = dataAt b) : a = b := by
  simp only [dataAt, sizeofAllocationState] at h
  omega

theorem segmentAt_inj {a b : Nat} (ha : 1 ≤ a) (hb : 1 ≤ b) (h : segmentAt a = segmentAt b) : a = b := by
  simp only [segmentAt, segmentSize] at h
  omega

theorem dataOf_segmentAt (count : Nat) : dataOf (segmentAt count) = dataAt count := by
  rw [dataOf, segmentAt, Nat.add_sub_cancel_left, Nat.mul_div_cancel _ (by decide), dataAt]

theorem segmentAt_bounds (h : Fits size count) (h1 : 1 ≤ count) :
    segmentsAreaStart ≤ segmentAt count ∧ segmentAt count + segmentSize ≤ size := by
  simp only [Fits, segmentAt, segmentSize] at h ⊢
  omega

/-- In a memory of at most 2^43 bytes the allocation states fit into their vector. -/
theorem dataAt_bound (hsize : size ≤ 2 ^ 43) (h : Fits size count) :
    dataAt count + sizeofAllocationState ≤ segmentAllocationVecSize := by
  simp only [Fits, segmentsAreaStart, segmentSize, dataAt, sizeofAllocationState,
    segmentAllocationVecSize] at h ⊢
  omega

theorem bytes_disjoint {a b : Nat} (ha : 1 ≤ a) (hb : 1 ≤ b) (hne : segmentAt a ≠ segmentAt b) :
    Disjoint (bytes (segmentAt a)) (bytes (segmentAt b)) := by
  rw [Set.disjoint_left]
  intro x hx hx'
  obtain ⟨hge, hlt⟩ := Set.mem_Ico.mp hx
  obtain ⟨hge', hlt'⟩ := Set.mem_Ico.mp hx'
  have hab : a ≠ b := fun hab => hne (congrArg segmentAt hab)
  simp only [segmentAt, segmentSize] at hge hlt hge' hlt'
  omega

/-! ## What a thread has -/

structure Own (size u : Nat) (l : Loc) (m : Mem) : Prop where
  id : u = 0 → l = ⟨.idle, [], []⟩
  nodup : l.owned.Nodup
  taken : ∀ seg ∈ l.owned, ∃ count, 1 ≤ count ∧ Fits size count ∧ seg = segmentAt count ∧
    (m.sas (dataAt count)).threadId = u
  mine : u ≠ 0 → ∀ count, 1 ≤ count → (m.sas (dataAt count)).threadId = u → segmentAt count ∈ l.owned
  scan : ∀ count, l.pc = .cas count → 1 ≤ count ∧ Fits size count ∧
    ∀ n, 1 ≤ n → n < count → ∃ w, (segmentAt n, w) ∈ l.seen
  null : l.pc = .null → ∀ n, 1 ≤ n → Fits size n → ∃ w, (segmentAt n, w) ∈ l.seen

namespace Own

theorem other (h : Own size u l m)
    (hm : u ≠ 0 → ∀ a, (m'.sas a).threadId = u ↔ (m.sas a).threadId = u) : Own size u l m' := by
  refine { h with taken := fun seg hseg => ?_, mine := fun hu count h1 ht => ?_ }
  · have hu : u ≠ 0 := by
      intro h0
      rw [h.id h0] at hseg
      cases hseg
    obtain ⟨count, h1, hfits, heq, ht⟩ := h.taken seg hseg
    exact ⟨count, h1, hfits, heq, (hm hu _).mpr ht⟩
  · exact h.mine hu count h1 ((hm hu _).mp ht)

theorem work (h : Own size u l m) (hu : u ≠ 0) (hperm : l'.owned.Perm l.owned)
    (hcas : ∀ count, l'.pc ≠ .cas count) (hnull : l'.pc ≠ .null)
    (hm : ∀ a, (m'.sas a).threadId = (m.sas a).threadId) : Own size u l' m' where
  id h0 := absurd h0 hu
  nodup := hperm.nodup_iff.mpr h.nodup
  taken seg hseg := by
    obtain ⟨count, h1, hfits, heq, ht⟩ := h.taken seg (hperm.mem_iff.mp hseg)
    exact ⟨count, h1, hfits, heq, (hm _).trans ht⟩
  mine _ count h1 ht := hperm.mem_iff.mpr (h.mine hu count h1 ((hm _).symm.trans ht))
  scan count hpc := absurd hpc (hcas count)
  null hpc := absurd hpc hnull

theorem tryAt (h : Own size u l m) (hu : u ≠ 0) (hpc : l.pc.segment = none) (h1 : 1 ≤ count)
    {seen : List (Nat × Nat)} (hseen : ∀ n, 1 ≤ n → n < count → ∃ w, (segmentAt n, w) ∈ seen) :
    Own size u { l with pc := CxlSegment.tryAt size count, seen := seen } m := by
  have howned : Loc.owned { l with pc := CxlSegment.tryAt size count, seen := seen } = l.owned := by
    rw [Loc.owned, Loc.owned, hpc, CxlSegment.tryAt]
    split <;> rfl
  refine ⟨fun h0 => absurd h0 hu, howned ▸ h.nodup, howned ▸ h.taken, howned ▸ h.mine, ?_, ?_⟩
  · intro n hn
    rw [CxlSegment.tryAt] at hn
    split at hn
    · cases hn
    · next hfits =>
      cases hn
      exact ⟨h1, Nat.not_lt.mp hfits, hseen⟩
  · intro hn n hn1 hfits
    rw [CxlSegment.tryAt] at hn
    split at hn
    · next hnot =>
      refine hseen n hn1 ?_
      rw [Fits] at hfits
      by_contra hge
      have hle := Nat.mul_le_mul_right segmentSize (Nat.not_lt.mp hge)
      omega
    · cases hn

theorem take (h : Own size u l m) (hu : u ≠ 0) (hpc : l.pc = .cas count)
    (hfree : (m.sas (dataAt count)).threadId = 0) :
    Own size u { l with pc := .setVer count }
      (m.setSas (dataAt count) { m.sas (dataAt count) with threadId := u }) := by
  obtain ⟨h1, hfits, -⟩ := h.scan count hpc
  have howned : l.owned = l.mine := by rw [Loc.owned, hpc]; rfl
  have hnot : segmentAt count ∉ l.mine := by
    intro hmem
    obtain ⟨n, hn, -, heq, ht⟩ := h.taken _ (howned ▸ hmem)
    rw [← segmentAt_inj h1 hn heq, hfree] at ht
    exact hu ht.symm
  refine ⟨fun h0 => absurd h0 hu, ?_, ?_, ?_, nofun, nofun⟩
  · exact List.nodup_cons.mpr ⟨hnot, howned ▸ h.nodup⟩
  · intro seg hseg
    rcases List.mem_cons.mp hseg with rfl | hmem
    · exact ⟨count, h1, hfits, rfl, by simp [Mem.setSas]⟩
    · obtain ⟨n, hn, hfits', rfl, ht⟩ := h.taken seg (howned ▸ hmem)
      refine ⟨n, hn, hfits', rfl, ?_⟩
      by_cases hd : dataAt n = dataAt count
      · simp [Mem.setSas, hd]
      · simp [Mem.setSas, hd, ht]
  · intro _ n hn ht
    by_cases hne : n = count
    · exact List.mem_cons.mpr (.inl (congrArg segmentAt hne))
    · have hd : dataAt n ≠ dataAt count := fun heq => hne (dataAt_inj hn h1 heq)
      simp only [Mem.setSas, update_of_ne hd] at ht
      exact List.mem_cons.mpr (.inr (howned ▸ h.mine hu n hn ht))

theorem giveUp {segment : Nat} (h : Own size u l m) (hu : u ≠ 0) (hpc : l.pc = .release segment) :
    Own size u { l with pc := .idle }
      (m.setSas (dataOf segment) { m.sas (dataOf segment) with threadId := 0 }) := by
  have howned : l.owned = segment :: l.mine := by rw [Loc.owned, hpc]; rfl
  obtain ⟨hnot, hnodup⟩ := List.nodup_cons.mp (howned ▸ h.nodup)
  obtain ⟨count, h1, -, rfl, -⟩ := h.taken segment (howned ▸ .head _)
  rw [dataOf_segmentAt]
  refine ⟨fun h0 => absurd h0 hu, hnodup, ?_, ?_, nofun, nofun⟩
  · intro seg hseg
    have hseg : seg ∈ l.mine := hseg
    obtain ⟨n, hn, hfits, rfl, ht⟩ := h.taken seg (howned ▸ .tail _ hseg)
    have hd : dataAt n ≠ dataAt count := by
      intro heq
      rw [dataAt_inj hn h1 heq] at hseg
      exact hnot hseg
    exact ⟨n, hn, hfits, rfl, by simp [Mem.setSas, hd, ht]⟩
  · intro _ n hn ht
    by_cases hd : dataAt n = dataAt count
    · simp [Mem.setSas, hd] at ht
      exact absurd ht.symm hu
    · simp only [Mem.setSas, update_of_ne hd] at ht
      have hmem := h.mine hu n hn ht
      rw [howned] at hmem
      refine (List.mem_cons.mp hmem).resolve_left fun heq => ?_
      exact hd (congrArg dataAt (segmentAt_inj hn h1 heq))

end Own

/-! ## Steps -/

theorem threadId_setSas {data : Nat} {x : AllocationState} (hx : x.threadId = (m.sas data).threadId)
    (a : Nat) : ((m.setSas data x).sas a).threadId = (m.sas a).threadId := by
  by_cases ha : a = data
  · rw [ha, Mem.setSas]
    simpa using hx
  · simp [Mem.setSas, ha]

theorem call_own {op : Op} (h : Own size u l m) (hc : call size u op l m = some (l', m')) :
    Own size u l' m' ∧ m' = m := by
  unfold call at hc
  split at hc
  · cases hc
  next hu =>
  split at hc
  · cases hc
  next hpc =>
  have hu0 : u ≠ 0 := fun h0 => hu (.inl h0)
  have hnone : l.pc.segment = none := by
    cases hl : l.pc <;> first | rfl | exact absurd ⟨by rw [hl]; nofun, by rw [hl]; nofun⟩ hpc
  cases op with
  | cxlSegmentAlloc =>
    cases hc
    exact ⟨h.tryAt hu0 hnone (Nat.le_refl 1) fun n h1 hlt => absurd hlt (by omega), rfl⟩
  | cxlSegmentFree segment =>
    dsimp only at hc
    split at hc
    · next hmem =>
      cases hc
      refine ⟨h.work hu0 ?_ nofun nofun fun _ => rfl, rfl⟩
      rw [Loc.owned, Loc.owned, hnone]
      exact (List.perm_cons_erase hmem.1).symm
    · cases hc

theorem run_own (h : Own size u l m) (hr : run size u l m = some (l', m')) : Own size u l' m' := by
  have hu : l.pc ≠ .idle → u ≠ 0 := fun hne h0 => hne (by rw [h.id h0])
  obtain ⟨pc, mine, seen⟩ := l
  cases pc with
  | idle => cases hr
  | null => cases hr
  | cas count =>
    have hu0 : u ≠ 0 := hu nofun
    obtain ⟨h1, hfits, hseen⟩ := h.scan count rfl
    simp only [run] at hr
    split at hr
    · next hfree =>
      cases hr
      exact h.take hu0 rfl hfree
    · cases hr
      refine h.tryAt hu0 rfl (Nat.le_succ_of_le h1) fun n hn hlt => ?_
      rcases Nat.lt_succ_iff_lt_or_eq.mp hlt with hlt | rfl
      · obtain ⟨w, hw⟩ := hseen n hn hlt
        exact ⟨w, .tail _ hw⟩
      · exact ⟨_, .head _⟩
  | setVer count | setInfo count =>
    cases hr
    exact h.work (hu nofun) (.refl _) nofun nofun (threadId_setSas rfl)
  | setThreadId count | setUsed count | clearThreadId segment | clearUsed segment =>
    cases hr
    exact h.work (hu nofun) (.refl _) nofun nofun fun _ => rfl
  | push count page | remove segment page =>
    simp only [run] at hr
    split at hr
    all_goals
      cases hr
      exact h.work (hu nofun) (.refl _) nofun nofun fun _ => rfl
  | release segment =>
    simp only [run] at hr
    split at hr
    · cases hr
      exact h.giveUp (hu nofun) rfl
    · cases hr
      exact h

theorem run_other (hw : w ≠ u) (hw0 : w ≠ 0) (hr : run size u l m = some (l', m')) (a : Nat) :
    (m'.sas a).threadId = w ↔ (m.sas a).threadId = w := by
  -- an id that is not `w` becomes another one
  have hset : ∀ data x, (m.sas data).threadId ≠ w → x.threadId ≠ w →
      (((m.setSas data x).sas a).threadId = w ↔ (m.sas a).threadId = w) := by
    intro data x hold hnew
    by_cases ha : a = data
    · rw [ha, Mem.setSas]
      simpa using iff_of_false hnew hold
    · simp [Mem.setSas, ha]
  obtain ⟨pc, mine, seen⟩ := l
  cases pc with
  | idle => cases hr
  | null => cases hr
  | cas count =>
    simp only [run] at hr
    split at hr
    · next hfree =>
      cases hr
      exact hset _ _ (hfree ▸ Ne.symm hw0) (Ne.symm hw)
    · cases hr
      exact .rfl
  | setVer count | setInfo count =>
    cases hr
    refine Eq.congr_left (threadId_setSas ?_ a)
    rfl
  | release segment =>
    simp only [run] at hr
    split at hr
    · next hmine =>
      cases hr
      exact hset _ _ (hmine ▸ Ne.symm hw) (Ne.symm hw0)
    · cases hr
      exact .rfl
  | push count page | remove segment page =>
    simp only [run] at hr
    split at hr <;> cases hr <;> exact .rfl
  | _ =>
    cases hr
    exact .rfl

theorem call_seen {op : Op} {x : Nat × Nat} (hc : call size u op l m = some (l', m'))
    (hx : x ∈ l'.seen) : x ∈ l.seen := by
  unfold call at hc
  split at hc
  · cases hc
  split at hc
  · cases hc
  cases op with
  | cxlSegmentAlloc =>
    cases hc
    cases hx
  | cxlSegmentFree segment =>
    dsimp only at hc
    split at hc
    · cases hc
      exact hx
    · cases hc

/-- What is new in `seen` is what a failed CAS has seen. -/
theorem run_seen {x : Nat × Nat} (hr : run size u l m = some (l', m')) (hx : x ∈ l'.seen) :
    x ∈ l.seen ∨ ∃ count, l.pc = .cas count ∧ x.1 = segmentAt count ∧
      x.2 = (m.sas (dataAt count)).threadId ∧ x.2 ≠ 0 := by
  obtain ⟨pc, mine, seen⟩ := l
  cases pc with
  | idle => cases hr
  | null => cases hr
  | cas count =>
    simp only [run] at hr
    split at hr
    · cases hr
      exact .inl hx
    · next hfull =>
      cases hr
      rcases List.mem_cons.mp hx with rfl | hx
      · exact .inr ⟨count, rfl, rfl, rfl, hfull⟩
      · exact .inl hx
  | push count page | remove segment page | release segment =>
    simp only [run] at hr
    split at hr <;> cases hr <;> exact .inl hx
  | _ =>
    cases hr
    exact .inl hx

/-! ## Runs -/

section Runs

variable {s : Sys Mem Loc}

theorem own_of_reach (h : (machine size).Reach Machine.free fresh s) (u : Nat) :
    Own size u (s.loc u) s.mem := by
  refine (h.invariant (G := fun _ => True) (T := Own size) ?_ ?_).2 u
  · intro s ⟨hfree, hidle⟩
    refine ⟨trivial, fun t => ?_⟩
    rw [hidle t]
    refine ⟨fun _ => rfl, List.nodup_nil, nofun, fun h0 count _ ht => ?_, nofun, nofun⟩
    exact absurd ((hfree _).symm.trans ht).symm h0
  · intro s a l m ⟨_, hown⟩ _ hact
    refine ⟨trivial, ?_⟩
    cases a with
    | call t op =>
      obtain ⟨hl, rfl⟩ := call_own (hown t) hact
      exact ⟨hl, fun w _ => hown w⟩
    | run t =>
      refine ⟨run_own (hown t) hact, fun w hw => (hown w).other fun hw0 => ?_⟩
      exact run_other hw hw0 hact

theorem seen_step {s' : Sys Mem Loc} {a : Act Op} (h : (machine size).Reach Machine.free fresh s)
    (hs : (machine size).step s a = some s') {seg : Nat} (hseen : (seg, w) ∈ (s'.loc u).seen) :
    (seg, w) ∈ (s.loc u).seen ∨ seg ∈ (s.loc w).owned := by
  obtain ⟨⟨l, m⟩, hact, rfl⟩ := Option.map_eq_some_iff.mp hs
  by_cases hu : u = a.thread
  · subst hu
    simp only [update_self] at hseen
    cases a with
    | call t op => exact .inl (call_seen hact hseen)
    | run t =>
      refine (run_seen hact hseen).imp_right fun ⟨count, hpc, hseg, hw, hw0⟩ => ?_
      have h1 := ((own_of_reach h t).scan count hpc).1
      dsimp only at hseg hw hw0
      rw [hseg]
      exact (own_of_reach h w).mine hw0 count h1 hw.symm
  · simp only [update_of_ne hu] at hseen
    exact .inl hseen

/-- Two threads do not own one segment, segments lie in the memory and do not overlap,
and `cxl_segment_alloc` returns NULL only if it has seen every segment owned. -/
theorem segments_owned_once (hsize : size ≤ 2 ^ 43) (h : (machine size).Reach Machine.free fresh s) :
    (∀ u w, u ≠ w → ∀ a ∈ (s.loc u).owned, ∀ b ∈ (s.loc w).owned, a ≠ b ∧ Disjoint (bytes a) (bytes b)) ∧
    (∀ u, (s.loc u).owned.Pairwise fun a b => Disjoint (bytes a) (bytes b)) ∧
    (∀ u, ∀ a ∈ (s.loc u).owned, segmentsAreaStart ≤ a ∧ a + segmentSize ≤ size ∧
      dataOf a + sizeofAllocationState ≤ segmentAllocationVecSize) ∧
    (∀ u, (s.loc u).pc = .null → ∀ count, 1 ≤ count → segmentsAreaStart + count * segmentSize ≤ size →
      ∃ w, (segmentAt count, w) ∈ (s.loc u).seen) ∧
    ∀ a s', (machine size).step s a = some s' → ∀ u w seg, (seg, w) ∈ (s'.loc u).seen →
      (seg, w) ∈ (s.loc u).seen ∨ seg ∈ (s.loc w).owned := by
  have hown := own_of_reach h
  refine ⟨?_, fun u => ?_, ?_, fun u => (hown u).null, fun a s' hs u w seg => seen_step h hs⟩
  · intro u w hne a ha b hb
    obtain ⟨i, hi, -, rfl, hu⟩ := (hown u).taken a ha
    obtain ⟨j, hj, -, rfl, hw⟩ := (hown w).taken b hb
    have hab : segmentAt i ≠ segmentAt j := by
      intro heq
      rw [segmentAt_inj hi hj heq, hw] at hu
      exact hne hu.symm
    exact ⟨hab, bytes_disjoint hi hj hab⟩
  · refine (hown u).nodup.imp_of_mem fun {a b} ha hb hab => ?_
    obtain ⟨i, hi, -, rfl, -⟩ := (hown u).taken a ha
    obtain ⟨j, hj, -, rfl, -⟩ := (hown u).taken b hb
    exact bytes_disjoint hi hj hab
  · intro u a ha
    obtain ⟨i, hi, hfits, rfl, -⟩ := (hown u).taken a ha
    obtain ⟨hge, hle⟩ := segmentAt_bounds hfits hi
    exact ⟨hge, hle, dataOf_segmentAt i ▸ dataAt_bound hsize hfits⟩

/-- Room for one segment: thread 1 takes it, and thread 2 gets none. -/
def oneSegment : List (Act Op) :=
  [.call 1 .cxlSegmentAlloc, .run 1, .call 2 .cxlSegmentAlloc, .run 2]

theorem oneSegment_run : ((machine (2 ^ 27 + 2 ^ 26)).runUnder Machine.free oneSegment
    ⟨⟨fun _ => ⟨0, 0, 0, 0⟩, fun _ => ⟨0, 0⟩, fun _ => []⟩, fun _ => ⟨.idle, [], []⟩⟩).any fun s =>
      s.loc 1 = ⟨.setVer 1, [], []⟩ ∧ (s.loc 2).pc = .null := by
  decide +kernel

theorem segments_owned_once_oneSegment : ∃ s : Sys Mem Loc,
    (machine (2 ^ 27 + 2 ^ 26)).Reach Machine.free fresh s ∧ 2 ^ 27 ∈ (s.loc 1).owned ∧
      (s.loc 2).pc = .null ∧ ∃ w, (2 ^ 27, w) ∈ (s.loc 2).seen := by
  obtain ⟨s, _, hreach, h1, h2⟩ :=
    Machine.reach_of_any fresh ⟨fun _ => rfl, fun _ => rfl⟩ oneSegment_run
  have hall := (segments_owned_once (by decide) hreach).2.2.2.1
  exact ⟨s, hreach, by rw [h1]; decide, h2, hall 2 h2 1 (Nat.le_refl 1) (by decide)⟩

end Runs

end ShmPcc.CxlSegment
