import ShmPcc.Ref.CxlLayout

/-!
# The regions of the threads

A slot of the vector of thread-local states is held by one thread, and the `i`th slot
belongs to the thread with id `i + 1`. So the regions of one kind are blocks of one size
side by side, and those of different kinds lie in different parts of memory as long as
there are not too many of them. The hash tables are the first to run out of room: with
65 threads the last one has its table where the segments begin.
-/

namespace ShmPcc.CxlLayout

open Function

variable {s : Sys Mem Pc} {m m' : Mem} {pc pc' : Pc} {u w i j : Nat}

/-! ## Addresses -/

/-- The `i`th slot. -/
def slotAt (i : Nat) : Nat := threadLocalVecStart + i * sizeofThreadLocalState

theorem maxHashTables_eq : maxHashTables = 64 := rfl

theorem threadId_slotAt (i : Nat) : threadId (slotAt i) = i + 1 := by
  rw [threadId, slotAt, Nat.add_sub_cancel_left, Nat.mul_div_cancel _ (by decide)]

theorem slotAt_succ (i : Nat) : slotAt i + sizeofThreadLocalState = slotAt (i + 1) := by
  rw [slotAt, slotAt, Nat.add_mul, Nat.one_mul, Nat.add_assoc]

theorem slotAt_inj (h : slotAt i = slotAt j) : i = j := by
  have hid := congrArg threadId h
  rw [threadId_slotAt, threadId_slotAt] at hid
  omega

theorem Region.disjoint {r r' : Region}
    (h : r.start + r.size ≤ r'.start ∨ r'.start + r'.size ≤ r.start) : Disjoint r.bytes r'.bytes := by
  rw [Set.disjoint_left]
  intro x hx hx'
  obtain ⟨hge, hlt⟩ := Set.mem_Ico.mp hx
  obtain ⟨hge', hlt'⟩ := Set.mem_Ico.mp hx'
  omega

theorem region_slotAt (k : Kind) (i : Nat) : (k.region (slotAt i)) = match k with
    | .threadLocalState => ⟨2 ^ 23 + i * 2176, 2176⟩
    | .eraRow => ⟨2 ^ 22 + i * 4096, 4096⟩
    | .hashTable => ⟨2 ^ 26 + i * 2 ^ 20, 2 ^ 20⟩ := by
  cases k with
  | threadLocalState => rfl
  | eraRow =>
    simp only [Kind.region, threadId_slotAt, eraAddr, eraArrayStart, maxThread]
    congr 1
    omega
  | hashTable => simp only [Kind.region, threadId_slotAt, Nat.add_sub_cancel, hashTableStart, hashTableSize]

theorem region_disjoint {k k' : Kind} (hi : i < maxHashTables) (hj : j < maxHashTables)
    (hne : i ≠ j ∨ k ≠ k') :
    Disjoint (k.region (slotAt i)).bytes (k'.region (slotAt j)).bytes := by
  rw [maxHashTables_eq] at hi hj
  refine Region.disjoint ?_
  rw [region_slotAt, region_slotAt]
  cases k <;> cases k' <;> simp at hne ⊢ <;> omega

theorem region_disjoint_segmentAllocationVec {k : Kind} :
    Disjoint (k.region (slotAt i)).bytes segmentAllocationVec.bytes := by
  refine Region.disjoint (.inr ?_)
  rw [region_slotAt]
  cases k <;> simp [segmentAllocationVec, segmentAllocationVecSize] <;> omega

theorem region_disjoint_segmentsArea {k : Kind} (hi : i < maxHashTables) (size : Nat) :
    Disjoint (k.region (slotAt i)).bytes (segmentsArea size).bytes := by
  rw [maxHashTables_eq] at hi
  refine Region.disjoint (.inl ?_)
  rw [region_slotAt]
  cases k <;> simp [segmentsArea, segmentsAreaStart] <;> omega

/-! ## Slots -/

/-- Where a thread is in the vector, and that the slot it has is taken. -/
def Own (_ : Nat) (pc : Pc) (m : Mem) : Prop :=
  match pc with
  | .idle => True
  | .cas offset tlsId => (∃ i, offset = slotAt i) ∧ tlsId ≠ 0
  | .init offset | .registered offset _ => (∃ i < maxHashTables, offset = slotAt i) ∧ m.packed offset ≠ 0

/-- Two threads have different slots. -/
def Apart (_ : Nat) (pc : Pc) (_ : Nat) (pc' : Pc) (_ : Mem) : Prop :=
  ∀ o, pc.slot = some o → pc'.slot ≠ some o

theorem Own.slot {o : Nat} (h : Own u pc m) (ho : pc.slot = some o) :
    (∃ i < maxHashTables, o = slotAt i) ∧ m.packed o ≠ 0 := by
  cases pc with
  | idle => cases ho
  | cas offset tlsId => cases ho
  | init offset =>
    cases ho
    exact h
  | registered offset t =>
    cases ho
    exact h

theorem Own.keep (h : Own u pc m) (hm : ∀ o, pc.slot = some o → m'.packed o = m.packed o) :
    Own u pc m' := by
  cases pc with
  | idle => trivial
  | cas offset tlsId => exact h
  | init offset | registered offset t => exact ⟨h.1, hm offset rfl ▸ h.2⟩

/-- What a step has to show: the slot the thread has is taken and nobody else's, and the
slots of the others stay as they are. -/
structure Stepped (s : Sys Mem Pc) (u : Nat) (pc : Pc) (m : Mem) : Prop where
  own : Own u pc m
  apart : ∀ w, w ≠ u → ∀ o, pc.slot = some o → (s.loc w).slot ≠ some o
  packed : ∀ w, w ≠ u → ∀ o, (s.loc w).slot = some o → m.packed o = s.mem.packed o

theorem call_stepped {op : Op} (hp : Machine.Paired Own Apart s) (hop : op.named = true)
    (h : call u op (s.loc u) s.mem = some (pc, m)) : Stepped s u pc m := by
  have hown := hp.1 u
  cases hpc : s.loc u with
  | idle =>
    rw [hpc] at h
    cases op with
    | threadInit machineId processId =>
      cases h
      exact ⟨⟨⟨0, rfl⟩, of_decide_eq_true hop⟩, nofun, fun _ _ _ _ => rfl⟩
    | casFails => cases h
    | recovered => cases h
  | cas offset tlsId =>
    rw [hpc] at h hown
    cases op with
    | casFails =>
      cases h
      obtain ⟨⟨i, rfl⟩, hid⟩ := hown
      exact ⟨⟨⟨i + 1, slotAt_succ i⟩, hid⟩, nofun, fun _ _ _ _ => rfl⟩
    | threadInit machineId processId => cases h
    | recovered => cases h
  | init offset =>
    rw [hpc] at h
    cases op <;> cases h
  | registered offset t =>
    rw [hpc] at h
    cases op with
    | recovered =>
      cases h
      refine ⟨trivial, nofun, fun w hw o ho => update_of_ne ?_ ..⟩
      intro heq
      exact hp.2 w u hw o ho (by rw [hpc, heq]; rfl)
    | threadInit machineId processId => cases h
    | casFails => cases h

theorem run_stepped (hp : Machine.Paired Own Apart s) (hroom : (s.loc u).roomy = true)
    (h : run u (s.loc u) s.mem = some (pc, m)) : Stepped s u pc m := by
  have hown := hp.1 u
  cases hpc : s.loc u with
  | idle | registered offset t =>
    rw [hpc] at h
    cases h
  | cas offset tlsId =>
    rw [hpc] at h hown hroom
    obtain ⟨⟨i, rfl⟩, hid⟩ := hown
    rw [run] at h
    split at h
    · next hfree =>
      cases h
      -- the slots of the others are taken, and this one was not
      have hother : ∀ w, w ≠ u → ∀ o, (s.loc w).slot = some o → o ≠ slotAt i := by
        intro w hw o ho heq
        exact ((hp.1 w).slot ho).2 (heq ▸ hfree)
      have hi : i < maxHashTables := by
        have hlt : slotAt i < threadLocalVecStart + maxHashTables * sizeofThreadLocalState :=
          of_decide_eq_true hroom
        exact Nat.lt_of_mul_lt_mul_right (Nat.lt_of_add_lt_add_left hlt)
      refine ⟨⟨⟨i, hi, rfl⟩, ?_⟩, ?_, ?_⟩
      · simpa using hid
      · intro w hw o ho how
        cases ho
        exact hother w hw _ how rfl
      · exact fun w hw o ho => update_of_ne (hother w hw o ho) ..
    · cases h
      exact ⟨⟨⟨i + 1, slotAt_succ i⟩, hid⟩, nofun, fun _ _ _ _ => rfl⟩
  | init offset =>
    rw [hpc] at h hown
    cases h
    refine ⟨hown, fun w hw o ho how => ?_, fun _ _ _ _ => rfl⟩
    cases ho
    exact hp.2 w u hw _ how (by rw [hpc]; rfl)

theorem paired_of_reach (h : machine.Reach roomy fresh s) : Machine.Paired Own Apart s := by
  refine h.paired_symm ?_ ?_ ?_
  · intro pc pc' hapart o ho hl
    exact hapart o hl ho
  · intro s ⟨_, hidle⟩
    refine ⟨fun t => ?_, fun t w _ o ho => ?_⟩
    · rw [hidle t]
      trivial
    · rw [hidle t] at ho
      cases ho
  · intro s a l m hp hroom hact
    have hstep : Stepped s a.thread l m := by
      cases a with
      | call u op => exact call_stepped hp hroom hact
      | run u => exact run_stepped hp hroom hact
    refine ⟨hstep.own, fun w hw => ?_⟩
    exact ⟨(hp.1 w).keep (hstep.packed w hw), hstep.apart w hw⟩

/-- The regions of different threads, and of different kinds, do not overlap, and none
overlaps the segment allocation vector or the segments. -/
theorem regions_disjoint {o o' : Nat} (h : machine.Reach roomy fresh s) (hu : (s.loc u).slot = some o)
    (hw : (s.loc w).slot = some o') (size : Nat) (k k' : Kind) :
    (u ≠ w ∨ k ≠ k' → Disjoint (k.region o).bytes (k'.region o').bytes) ∧
      Disjoint (k.region o).bytes segmentAllocationVec.bytes ∧
      Disjoint (k.region o).bytes (segmentsArea size).bytes := by
  obtain ⟨hown, hapart⟩ := paired_of_reach h
  obtain ⟨⟨i, hi, rfl⟩, -⟩ := (hown u).slot hu
  obtain ⟨⟨j, hj, rfl⟩, -⟩ := (hown w).slot hw
  refine ⟨fun hne => ?_, region_disjoint_segmentAllocationVec, region_disjoint_segmentsArea hi size⟩
  refine region_disjoint hi hj (hne.imp_left fun hne heq => ?_)
  exact hapart u w hne _ hu (heq ▸ hw)

/-- Two threads register, and the second one finds the first slot taken. -/
def twoThreads : List (Act Op) :=
  [.call 0 (.threadInit 1 7), .call 1 (.threadInit 1 8), .run 0, .run 1, .run 0, .run 1, .run 1]

theorem twoThreads_run : (machine.runUnder roomy twoThreads
    ⟨⟨fun _ => 0, fun _ _ => 0⟩, fun _ => .idle⟩).any fun s =>
      s.loc 0 = .registered (slotAt 0) 1 ∧ s.loc 1 = .registered (slotAt 1) 2 := by
  decide +kernel

theorem regions_disjoint_twoThreads : ∃ s : Sys Mem Pc, machine.Reach roomy fresh s ∧
    s.loc 0 = .registered (slotAt 0) 1 ∧ s.loc 1 = .registered (slotAt 1) 2 ∧
      Disjoint (Kind.hashTable.region (slotAt 0)).bytes (Kind.hashTable.region (slotAt 1)).bytes := by
  obtain ⟨s, _, hreach, h0, h1⟩ :=
    Machine.reach_of_any fresh ⟨fun _ => rfl, fun _ => rfl⟩ twoThreads_run
  have hdisjoint := regions_disjoint hreach (by rw [h0]; rfl) (by rw [h1]; rfl)
    (2 ^ 28) .hashTable .hashTable
  exact ⟨s, hreach, h0, h1, hdisjoint.1 (.inl (by decide))⟩

/-! ## How many threads there can be -/

/-- The first `n` threads have registered, in this order. -/
structure Registered (n : Nat) (s : Sys Mem Pc) : Prop where
  loc : ∀ u < n, s.loc u = .registered (slotAt u) (u + 1)
  idle : ∀ u, n ≤ u → s.loc u = .idle
  packed : ∀ i, s.mem.packed (slotAt i) = 0 ↔ n ≤ i

theorem Registered.scan {n : Nat} (hr : Registered n s) (h : machine.Reach Machine.free fresh s) :
    ∀ i ≤ n, machine.Reach Machine.free fresh
      ⟨s.mem, update s.loc n (.cas (slotAt i) (packMachineProcessId 1 n))⟩ := by
  intro i
  induction i with
  | zero =>
    intro _
    refine h.step (.call n (.threadInit 1 n)) trivial ?_
    simp [Machine.step, Machine.act, machine, call, hr.idle n (Nat.le_refl n), Act.thread, slotAt]
  | succ i ih =>
    intro hi
    refine (ih (by omega)).step (.run n) trivial ?_
    have htaken : s.mem.packed (slotAt i) ≠ 0 := fun h0 => absurd ((hr.packed i).mp h0) (by omega)
    simp [Machine.step, Machine.act, machine, run, htaken, Act.thread, slotAt_succ]

/-- Any number of threads can register. -/
theorem exists_registered : ∀ n < 2 ^ 16, ∃ s, machine.Reach Machine.free fresh s ∧ Registered n s := by
  intro n
  induction n with
  | zero =>
    intro _
    exact ⟨⟨⟨fun _ => 0, fun _ _ => 0⟩, fun _ => .idle⟩, .init ⟨fun _ => rfl, fun _ => rfl⟩,
      ⟨nofun, fun _ _ => rfl, fun _ => iff_of_true rfl (Nat.zero_le _)⟩⟩
  | succ n ih =>
    intro hn
    obtain ⟨s, hreach, hr⟩ := ih (by omega)
    have hfree : s.mem.packed (slotAt n) = 0 := (hr.packed n).mpr (Nat.le_refl n)
    have hid : packMachineProcessId 1 n ≠ 0 := by
      rw [packMachineProcessId]
      omega
    have htaken : machine.Reach Machine.free fresh ⟨{ s.mem with
        packed := update s.mem.packed (slotAt n) (packMachineProcessId 1 n) },
        update s.loc n (.init (slotAt n))⟩ := by
      refine (hr.scan hreach n (Nat.le_refl n)).step (.run n) trivial ?_
      simp [Machine.step, Machine.act, machine, run, hfree, Act.thread]
    refine ⟨_, htaken.step (.run n) trivial (by
      simp [Machine.step, Machine.act, machine, run, Act.thread]; rfl), ?_, ?_, ?_⟩
    · intro u hu
      by_cases hun : u = n
      · simp [hun, threadId_slotAt]
      · simp [hun, hr.loc u (by omega)]
    · intro u hu
      simp [show u ≠ n by omega, hr.idle u (by omega)]
    · intro i
      by_cases hin : i = n
      · simp [hin, hid]
      · have hne : slotAt i ≠ slotAt n := fun heq => hin (slotAt_inj heq)
        dsimp only
        rw [update_of_ne hne, hr.packed i]
        omega

/-- The hash table of the 65th thread lies in the segments. -/
theorem regions_overlap : ∃ s : Sys Mem Pc, machine.Reach Machine.free fresh s ∧
    ∃ u o t, s.loc u = .registered o t ∧
      ¬ Disjoint (Kind.hashTable.region o).bytes (segmentsArea (2 ^ 28)).bytes := by
  obtain ⟨s, hreach, hr⟩ := exists_registered 65 (by decide)
  refine ⟨s, hreach, 64, _, _, hr.loc 64 (by decide), ?_⟩
  rw [Set.not_disjoint_iff]
  refine ⟨2 ^ 27, ?_, ?_⟩
  · rw [region_slotAt]
    simp [Region.bytes]
  · simp [Region.bytes, segmentsArea, segmentsAreaStart]

end ShmPcc.CxlLayout
