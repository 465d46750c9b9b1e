import ShmPcc.Ref.CxlRefInfo

/-!
# The fields of `ref_info` do not run into each other

A count of 16 bits and an id of 16 bits fit side by side above the era, so a word put
together from them gives them back. A link adds 1 to a count that may be 65535
already: then the carry goes into the id, and the count is 0. And a link reads its own
era before it keeps the one it found; where the word carries its own id with a later
era, its own era has moved on when it makes its CAS. In runs where neither happens,
every CAS changes the count by 1 and leaves the id and the era of its thread, and
`unlink_reference` frees exactly when the count is 0 after it.

The redo record of a thread keeps the count alone. `redo_ref_cnt` takes it for a whole
`ref_info` and shifts the count out of it, so that no segment is ever marked.
-/

namespace ShmPcc.CxlRefInfo

open Function

/-! ## Words -/

theorem toNat_getRefCntFromInfo (w : Word) :
    (getRefCntFromInfo w).toNat = w.toNat / 2 ^ 32 % 2 ^ 16 := by
  rw [getRefCntFromInfo, BitVec.toNat_and, BitVec.toNat_ushiftRight, Nat.shiftRight_eq_div_pow]
  exact Nat.and_two_pow_sub_one_eq_mod _ 16

theorem toNat_getLcidFromInfo (w : Word) :
    (getLcidFromInfo w).toNat = w.toNat / 2 ^ 48 % 2 ^ 16 := by
  rw [getLcidFromInfo, BitVec.toNat_and, BitVec.toNat_ushiftRight, Nat.shiftRight_eq_div_pow]
  exact Nat.and_two_pow_sub_one_eq_mod _ 16

theorem toNat_getLenumFromInfo (w : Word) : (getLenumFromInfo w).toNat = w.toNat % 2 ^ 32 := by
  exact Nat.and_two_pow_sub_one_eq_mod _ 32

theorem getRefCntFromInfo_lt (w : Word) : (getRefCntFromInfo w).toNat < 2 ^ 16 := by
  rw [toNat_getRefCntFromInfo]
  exact Nat.mod_lt _ (by decide)

theorem toNat_packRefInfo {lcid refCnt : Word} (lenum : BitVec 32) (hl : lcid.toNat < 2 ^ 16)
    (hc : refCnt.toNat < 2 ^ 16) : (packRefInfo lcid refCnt lenum).toNat =
      lcid.toNat * 2 ^ 48 + refCnt.toNat * 2 ^ 32 + lenum.toNat := by
  have he := lenum.isLt
  simp only [packRefInfo, BitVec.toNat_add, BitVec.toNat_shiftLeft, Nat.shiftLeft_eq,
    BitVec.toNat_setWidth]
  omega

theorem packRefInfo_fields {lcid refCnt : Word} (lenum : BitVec 32) (hl : lcid.toNat < 2 ^ 16)
    (hc : refCnt.toNat < 2 ^ 16) :
    (getLcidFromInfo (packRefInfo lcid refCnt lenum)).toNat = lcid.toNat ∧
      (getRefCntFromInfo (packRefInfo lcid refCnt lenum)).toNat = refCnt.toNat ∧
      sawEra (packRefInfo lcid refCnt lenum) = lenum := by
  have he := lenum.isLt
  have hw := toNat_packRefInfo lenum hl hc
  refine ⟨?_, ?_, BitVec.eq_of_toNat_eq ?_⟩
  · rw [toNat_getLcidFromInfo, hw]
    omega
  · rw [toNat_getRefCntFromInfo, hw]
    omega
  · rw [sawEra, BitVec.toNat_setWidth, toNat_getLenumFromInfo, hw]
    omega

theorem toNat_one : (1 : Word).toNat = 1 := rfl

def Kind.delta : Kind → Int
  | .linkRef => 1
  | .unlinkRef => -1

variable {w : Word}

theorem toNat_newCnt {kind : Kind} (h : kind.fits (getRefCntFromInfo w)) :
    (((kind.newCnt (refInfoCnt w)).toNat : Nat) : Int) = (getRefCntFromInfo w).toNat + kind.delta ∧
      (kind.newCnt (refInfoCnt w)).toNat < 2 ^ 16 := by
  have hlt := getRefCntFromInfo_lt w
  have hcnt : ((refInfoCnt w).setWidth 64).toNat = (getRefCntFromInfo w).toNat := by
    simp only [refInfoCnt, BitVec.toNat_setWidth]
    omega
  cases kind with
  | linkRef =>
    have hfit : (getRefCntFromInfo w).toNat + 1 < 2 ^ 16 := h
    simp only [Kind.newCnt, Kind.delta, BitVec.toNat_add, hcnt, toNat_one]
    omega
  | unlinkRef =>
    have hfit : 1 ≤ (getRefCntFromInfo w).toNat := h
    simp only [Kind.newCnt, Kind.delta, BitVec.toNat_sub, hcnt, toNat_one]
    omega

/-! ## What the log may hold -/

/-- A CAS changes the count by 1 and leaves the id of its thread and the era that its
thread has then; an unlink frees if and only if its CAS left the count 0. -/
def Event.Lawful (log : List Event) : Event → Prop
  | .cas kind u _ before after era =>
    ((getRefCntFromInfo after).toNat : Int) = (getRefCntFromInfo before).toNat + kind.delta ∧
      (getLcidFromInfo after).toNat = u ∧ sawEra after = era
  | .unlinked u refed after freed =>
    (∃ before era, Event.cas .unlinkRef u refed before after era ∈ log) ∧
      (freed = true ↔ (getRefCntFromInfo after).toNat = 0)

theorem Event.Lawful.mono {log log' : List Event} {e : Event} (h : e.Lawful log)
    (hlog : ∀ e ∈ log, e ∈ log') : e.Lawful log' := by
  cases e with
  | cas kind u refed before after era => exact h
  | unlinked u refed after freed =>
    obtain ⟨⟨before, era, hcas⟩, hfreed⟩ := h
    exact ⟨⟨before, era, hlog _ hcas⟩, hfreed⟩

def Inv (m : Mem) : Prop := ∀ e ∈ m.log, e.Lawful m.log

variable {m m' : Mem}

theorem Inv.append (h : Inv m) {e : Event} (hlog : m'.log = m.log ++ [e]) (he : e.Lawful m.log) :
    Inv m' := by
  intro x hx
  rw [hlog] at hx ⊢
  have hsub : ∀ y ∈ m.log, y ∈ m.log ++ [e] := fun y hy => List.mem_append_left _ hy
  obtain hx | hx := List.mem_append.mp hx
  · exact (h x hx).mono hsub
  · rw [List.mem_singleton.mp hx]
    exact he.mono hsub

/-! ## What a thread knows -/

/-- The word an unlink left by its CAS. -/
structure Left (u : Nat) (m : Mem) (c : Call) (refInfo after : Word) : Prop where
  pos : 1 ≤ (getRefCntFromInfo refInfo).toNat
  cnt : (getRefCntFromInfo after).toNat = (getRefCntFromInfo refInfo).toNat - 1
  logged : ∃ before era, Event.cas .unlinkRef u c.refed before after era ∈ m.log

def Pc.At (u : Nat) (m : Mem) : Pc → Prop
  | .idle => True
  | .sawEra _ _ era | .keepEra _ _ era =>
    (1 ≤ u ∧ u ≤ maxThread) ∧ ∀ e, era = some e → m.era (eraIdx u u) = e
  | .record _ _ era | .cas _ _ era => (1 ≤ u ∧ u ≤ maxThread) ∧ m.era (eraIdx u u) = era
  | .write c refInfo after | .bump c refInfo after =>
    (1 ≤ u ∧ u ≤ maxThread) ∧ (c.kind = .unlinkRef → Left u m c refInfo after)
  | .decide c refInfo after => (1 ≤ u ∧ u ≤ maxThread) ∧ Left u m c refInfo after
  | _ => 1 ≤ u ∧ u ≤ maxThread

theorem Pc.At.range {u : Nat} {pc : Pc} (h : pc.At u m) (hpc : pc ≠ .idle) :
    1 ≤ u ∧ u ≤ maxThread := by
  cases pc
  case idle => exact absurd rfl hpc
  case sawEra | keepEra | record | cas | write | bump | decide => exact h.1
  all_goals exact h

/-- What a step leaves to the other threads. -/
structure Later (w : Nat) (pc : Pc) (m m' : Mem) : Prop where
  log : ∀ e ∈ m.log, e ∈ m'.log
  era : pc.readEra = true → m'.era (eraIdx w w) = m.era (eraIdx w w)

variable {c : Call}

theorem Left.later {u : Nat} {after : Word} (h : Left u m c w after)
    (hlog : ∀ e ∈ m.log, e ∈ m'.log) : Left u m' c w after := by
  obtain ⟨before, era, hcas⟩ := h.logged
  exact ⟨h.pos, h.cnt, before, era, hlog _ hcas⟩

theorem Pc.At.later {w : Nat} {pc : Pc} (h : pc.At w m) (hl : Later w pc m m') : pc.At w m' := by
  cases pc
  case idle => trivial
  case sawEra c info era | keepEra c info era =>
    refine ⟨h.1, fun e he => ?_⟩
    subst he
    rw [hl.era rfl]
    exact h.2 e rfl
  case record c info era | cas c info era => exact ⟨h.1, (hl.era rfl).trans h.2⟩
  case write c info after | bump c info after =>
    exact ⟨h.1, fun hk => (h.2 hk).later hl.log⟩
  case decide c info after => exact ⟨h.1, h.2.later hl.log⟩
  all_goals exact h

theorem eraIdx_self_ne {u w : Nat} (h : w ≠ u) : eraIdx w w ≠ eraIdx u u := by
  simp only [eraIdx, maxThread]
  omega

/-- A step that changes at most the thread's own era and adds nothing to the log. -/
theorem later_of_era {u w : Nat} {pc : Pc} (hw : w ≠ u) (hlog : m'.log = m.log)
    (hera : m'.era = m.era ∨ ∃ e, m'.era = update m.era (eraIdx u u) e) :
    Later w pc m m' := by
  refine ⟨fun e he => hlog ▸ he, fun _ => ?_⟩
  obtain hera | ⟨e, hera⟩ := hera
  · rw [hera]
  · rw [hera, update_of_ne (eraIdx_self_ne hw)]

/-! ## The steps -/

variable {s : Sys Mem Pc} {u : Nat} {pc : Pc} {m : Mem}

/-- One access keeps the log lawful, and what each thread knows. -/
structure Stepped (s : Sys Mem Pc) (u : Nat) (pc : Pc) (m : Mem) : Prop where
  inv : Inv m
  own : pc.At u m
  others : ∀ w, w ≠ u → Later w (s.loc w) s.mem m

theorem Stepped.quiet (hi : Inv s.mem) (hlog : m.log = s.mem.log)
    (hera : m.era = s.mem.era ∨ ∃ e, m.era = update s.mem.era (eraIdx u u) e)
    (hat : pc.At u m) : Stepped s u pc m := by
  refine ⟨?_, hat, fun w hw => later_of_era hw hlog hera⟩
  rw [Inv, hlog]
  exact hi

theorem call_stepped {op : Op} (hi : Inv s.mem) (h : call u op (s.loc u) s.mem = some (pc, m)) :
    Stepped s u pc m := by
  unfold call at h
  split at h
  · split at h
    · next hu =>
      cases op with
      | linkReference ref refed | unlinkReference ref refed =>
        cases h
        exact .quiet hi rfl (.inl rfl) hu
      | other refInfo ref era redo blocks =>
        cases h
        exact .quiet hi rfl (.inr ⟨era, rfl⟩) trivial
    · cases h
  · cases h

theorem newRefInfo_fields {kind : Kind} (era : BitVec 32) (hu : u ≤ maxThread)
    (h : kind.fits (getRefCntFromInfo w)) :
    ((getRefCntFromInfo (newRefInfo u kind w era)).toNat : Int) =
        (getRefCntFromInfo w).toNat + kind.delta ∧
      (getLcidFromInfo (newRefInfo u kind w era)).toNat = u ∧
      sawEra (newRefInfo u kind w era) = era := by
  have hid : (BitVec.ofNat 64 u).toNat = u := by
    exact Nat.mod_eq_of_lt (Nat.lt_of_le_of_lt hu (by decide))
  obtain ⟨hcnt, hlt⟩ := toNat_newCnt h
  obtain ⟨h1, h2, h3⟩ := packRefInfo_fields era
    (show (BitVec.ofNat 64 u).toNat < 2 ^ 16 by rw [hid]; exact Nat.lt_of_le_of_lt hu (by decide)) hlt
  rw [newRefInfo]
  exact ⟨by rw [h2, hcnt], h1.trans hid, h3⟩

theorem cas_stepped {era : BitVec 32} (hi : Inv s.mem) (hu : 1 ≤ u ∧ u ≤ maxThread)
    (hera : s.mem.era (eraIdx u u) = era) (hw : s.mem.refInfo c.refed = w)
    (hfits : c.kind.fits (getRefCntFromInfo w)) :
    Stepped s u (.write c w (newRefInfo u c.kind w era)) (s.mem.cas u c w era) := by
  have hfields := newRefInfo_fields era hu.2 hfits
  have hlog : (s.mem.cas u c w era).log = s.mem.log ++
      [.cas c.kind u c.refed w (newRefInfo u c.kind w era) era] := by
    simp only [Mem.cas, hw, hera]
  refine ⟨hi.append hlog hfields, ⟨hu, fun hk => ?_⟩, fun x hx => ⟨fun e he => ?_, fun _ => rfl⟩⟩
  · have hpos : 1 ≤ (getRefCntFromInfo w).toNat := by
      rw [hk] at hfits
      exact hfits
    refine ⟨hpos, ?_, w, era, ?_⟩
    · have hcnt := hfields.1
      rw [hk, Kind.delta] at hcnt
      rw [hk]
      omega
    · rw [hlog, hk]
      exact List.mem_append_right _ (List.mem_singleton_self _)
  · exact List.mem_append_left _ he

theorem keepEra_stepped {era : Option (BitVec 32)} {pc' : Pc} (hi : Inv s.mem)
    (hloc : s.loc u = .keepEra c w era) (hk : isolated s (.run u))
    (hat : ∀ x, Pc.At x s.mem (s.loc x))
    (hpc : pc'.At u { s.mem with era := update s.mem.era (Mem.sawCell u w) (sawEra w) }) :
    Stepped s u pc' { s.mem with
      era := update s.mem.era (Mem.sawCell u w) (sawEra w) } := by
  refine ⟨hi, hpc, fun x _ => ⟨fun e he => he, fun hread => ?_⟩⟩
  have hx := (hat x).range fun hidle => by
    rw [hidle] at hread
    cases hread
  have hne : Mem.sawCell u w ≠ eraIdx x x := by
    simp only [isolated, Act.thread, hloc] at hk
    refine hk x ?_ hread
    rw [List.mem_range'_1]
    omega
  exact update_of_ne hne.symm ..

theorem decide_stepped {after : Word} (hi : Inv s.mem) (hu : 1 ≤ u ∧ u ≤ maxThread)
    (hleft : Left u s.mem c w after) :
    Stepped s u (if decide (getRefCntFromInfo w - 1 > 0) then .idle else .memset c.refed)
      { s.mem with log := s.mem.log ++
        [.unlinked u c.refed after !decide (getRefCntFromInfo w - 1 > 0)] } := by
  have hpos := hleft.pos
  have hlt := getRefCntFromInfo_lt w
  have hkept : decide (getRefCntFromInfo w - 1 > 0) = true ↔
      (getRefCntFromInfo after).toNat ≠ 0 := by
    have hsub : (getRefCntFromInfo w - 1).toNat = (getRefCntFromInfo w).toNat - 1 := by
      rw [BitVec.toNat_sub, toNat_one]
      omega
    rw [decide_eq_true_iff, gt_iff_lt, BitVec.lt_def, hsub, hleft.cnt]
    exact Nat.pos_iff_ne_zero
  refine ⟨hi.append rfl ⟨hleft.logged, ?_⟩, ?_, fun x _ =>
    ⟨fun e he => List.mem_append_left _ he, fun _ => rfl⟩⟩
  · rw [Bool.not_eq_true', ← Bool.not_eq_true, hkept, not_not]
  · split
    · trivial
    · exact hu

theorem run_stepped (hi : Inv s.mem) (hat : ∀ x, Pc.At x s.mem (s.loc x))
    (hk : isolated s (.run u)) (h : run u (s.loc u) s.mem = some (pc, m)) : Stepped s u pc m := by
  have hown := hat u
  cases hloc : s.loc u with
  | idle =>
    rw [hloc] at h
    cases h
  | load c =>
    rw [hloc] at h hown
    simp only [run] at h
    split at h
    · cases h
      exact .quiet hi rfl (.inl rfl) hown
    · cases h
      exact .quiet hi rfl (.inl rfl) ⟨hown, nofun⟩
  | curEra c w =>
    rw [hloc] at h hown
    simp only [run] at h
    split at h
    · cases h
      refine .quiet hi rfl (.inl rfl) ⟨hown, fun e he => Option.some.inj he⟩
    · cases h
      exact .quiet hi rfl (.inl rfl) ⟨hown, rfl⟩
  | sawEra c w era =>
    rw [hloc] at h hown
    simp only [run] at h
    split at h
    · cases h
      exact .quiet hi rfl (.inl rfl) hown
    · split at h
      · next e =>
        cases h
        exact .quiet hi rfl (.inl rfl) ⟨hown.1, hown.2 e rfl⟩
      · cases h
        exact .quiet hi rfl (.inl rfl) hown.1
  | keepEra c w era =>
    have hk' := hk
    rw [hloc] at h hown
    simp only [run] at h
    split at h
    · next e =>
      cases h
      refine keepEra_stepped hi hloc hk hat ⟨hown.1, ?_⟩
      -- its own cell is not the one it writes to, for it has read its era
      have hne : Mem.sawCell u w ≠ eraIdx u u := by
        simp only [isolated, Act.thread, hloc] at hk'
        refine hk' u ?_ (by rw [hloc]; rfl)
        have := hown.1
        rw [List.mem_range'_1]
        omega
      exact (update_of_ne hne.symm ..).trans (hown.2 e rfl)
    · cases h
      exact keepEra_stepped hi hloc hk hat hown.1
  | record c w era | memset b | pushNext b | pushLocal b | infoFirst b =>
    rw [hloc] at h hown
    cases h
    exact .quiet hi rfl (.inl rfl) hown
  | cas c w era =>
    rw [hloc] at h hown
    simp only [run] at h
    split at h
    · next hw =>
      cases h
      simp only [isolated, Act.thread, hloc] at hk
      exact cas_stepped hi hown.1 hown.2 hw (hk hw)
    · cases h
      exact .quiet hi rfl (.inl rfl) hown.1
  | write c w after =>
    rw [hloc] at h hown
    cases h
    exact .quiet hi rfl (.inl rfl) ⟨hown.1, fun hkind => (hown.2 hkind).later fun _ he => he⟩
  | bump c w after =>
    rw [hloc] at h hown
    simp only [run] at h
    split at h
    · cases h
      exact .quiet hi rfl (.inr ⟨_, rfl⟩) trivial
    · next hkind =>
      cases h
      exact .quiet hi rfl (.inr ⟨_, rfl⟩)
        ⟨hown.1, (hown.2 hkind).later fun _ he => he⟩
  | decide c w after =>
    rw [hloc] at h hown
    cases h
    exact decide_stepped hi hown.1 hown.2
  | owner b =>
    rw [hloc] at h hown
    simp only [run] at h
    split at h <;> cases h <;> exact .quiet hi rfl (.inl rfl) hown
  | unused q | releasePage q =>
    rw [hloc] at h hown
    cases h
    refine .quiet hi rfl (.inl rfl) ?_
    split
    · exact hown
    · trivial
  | releaseSegment n =>
    rw [hloc] at h hown
    cases h
    exact .quiet hi rfl (.inl rfl) trivial
  | infoLoad b | infoCas b info =>
    rw [hloc] at h hown
    simp only [run] at h
    split at h
    · cases h
      exact .quiet hi rfl (.inl rfl) trivial
    · cases h
      exact .quiet hi rfl (.inl rfl) hown

/-- In runs where counts stay within their bits and no thread's own era moves on
between its reading it and its CAS, each CAS and each decision to free is as it should. -/
theorem ref_info_isolated (h : machine.Reach isolated anyMemory s) :
    ∀ e ∈ s.mem.log, e.Lawful s.mem.log := by
  have hinv : Machine.Holds Inv (fun u pc m => Pc.At u m pc) s := by
    refine Machine.Reach.invariant (fun s hs => ?_) (fun s a pc m hs hk ha => ?_) h
    · refine ⟨?_, fun u => ?_⟩
      · intro e he
        rw [hs.2] at he
        cases he
      · rw [hs.1 u]
        trivial
    · obtain ⟨hi, hat⟩ := hs
      have hstep : Stepped s a.thread pc m := by
        cases a with
        | call u op => exact call_stepped hi ha
        | run u => exact run_stepped hi hat hk ha
      exact ⟨hstep.inv, hstep.own, fun w hw => (hat w).later (hstep.others w hw)⟩
  exact hinv.1

/-- An object in the first page of the first segment. -/
def object : Nat := CxlAlloc.firstSegment * CxlAlloc.pagesPerSegment * CxlAlloc.pageSize + CxlAlloc.pageSize

/-- All words are `refInfo`, all segments are in one state and belong to nobody. -/
def oneWord (refInfo : Word) (state : CxlAlloc.SegmentState) : Sys Mem Pc where
  mem := {
    refInfo := fun _ => refInfo
    ref := fun _ => object
    era := fun _ => 0
    redo := fun _ _ => ⟨none, 0, 0, 0, 0⟩
    blocks := ⟨fun _ => 0, fun _ => .zero, fun _ => ⟨0, 0⟩, fun _ => ⟨0, ⟨state, 0⟩⟩, fun _ => ⟨fun _ => [], []⟩,
      fun _ => .none⟩
    log := [] }
  loc := fun _ => .idle

theorem anyMemory_oneWord (refInfo : Word) (state : CxlAlloc.SegmentState) :
    anyMemory (oneWord refInfo state) := ⟨fun _ => rfl, rfl⟩

def whole (u : Nat) (op : Op) (n : Nat) : List (Act Op) := .call u op :: List.replicate n (.run u)

/-- Thread 1 links an object that has one reference, thread 2 unlinks it, and then
thread 1, whose own CAS thread 2 has made fail once. -/
def linkUnlink : List (Act Op) :=
  whole 1 (.linkReference 8 object) 8 ++ whole 1 (.unlinkReference 8 object) 4 ++
    whole 2 (.unlinkReference 16 object) 8 ++ List.replicate 14 (Act.run 1)

theorem ref_info_isolated_linkUnlink :
    ∃ s, machine.runUnder isolated linkUnlink (oneWord (packRefInfo 3 1 4) .normal) = some s ∧
      Event.unlinked 1 object (packRefInfo 1 0 1) true ∈ s.mem.log ∧
      ∀ e ∈ s.mem.log, e.Lawful s.mem.log := by
  have hrun : (machine.runUnder isolated linkUnlink (oneWord (packRefInfo 3 1 4) .normal)).any
      (fun s => decide (Event.unlinked 1 object (packRefInfo 1 0 1) true ∈ s.mem.log)) = true := by
    decide +kernel
  obtain ⟨s, hs, hfreed⟩ := (Option.any_eq_true _ _).mp hrun
  exact ⟨s, hs, of_decide_eq_true hfreed,
    ref_info_isolated (.of_runUnder (.init (anyMemory_oneWord _ _)) hs)⟩

/-- A link of an object with 65535 references leaves the count 0 and the id of the
next thread; a link that finds its own id with a later era leaves its old era. -/
theorem link_loses_count_and_era :
    (∃ s era, machine.runUnder Machine.free (whole 1 (.linkReference 8 object) 7)
        (oneWord (packRefInfo 3 65535 4) .normal) = some s ∧
      s.mem.log = [.cas .linkRef 1 object (packRefInfo 3 65535 4) (packRefInfo 2 0 0) era]) ∧
    ∃ s, machine.runUnder Machine.free (whole 1 (.linkReference 8 object) 7)
        (oneWord (packRefInfo 1 1 4) .normal) = some s ∧
      s.mem.log = [.cas .linkRef 1 object (packRefInfo 1 1 4) (packRefInfo 1 2 0) 4] := by
  have hcount : (machine.runUnder Machine.free (whole 1 (.linkReference 8 object) 7)
      (oneWord (packRefInfo 3 65535 4) .normal)).any (fun s => decide (s.mem.log =
        [.cas .linkRef 1 object (packRefInfo 3 65535 4) (packRefInfo 2 0 0) 0])) = true := by
    decide +kernel
  have hera : (machine.runUnder Machine.free (whole 1 (.linkReference 8 object) 7)
      (oneWord (packRefInfo 1 1 4) .normal)).any (fun s => decide (s.mem.log =
        [.cas .linkRef 1 object (packRefInfo 1 1 4) (packRefInfo 1 2 0) 4])) = true := by
    decide +kernel
  obtain ⟨s, hs, hlog⟩ := (Option.any_eq_true _ _).mp hcount
  obtain ⟨s', hs', hlog'⟩ := (Option.any_eq_true _ _).mp hera
  exact ⟨⟨s, 0, hs, of_decide_eq_true hlog⟩, s', hs', of_decide_eq_true hlog'⟩

/-! ## Segments that are not marked -/

/-- The state of the segment of a block. -/
def Mem.stateOf (m : Mem) (b : Nat) : CxlAlloc.SegmentState :=
  (m.blocks.sas (CxlAlloc.segmentOf (CxlAlloc.pageOf b))).info.state

/-- The saved count has nothing where a `ref_info` has its count. -/
theorem getRefCntFromInfo_saved (cnt : BitVec 16) : getRefCntFromInfo (cnt.setWidth 64) = 0 := by
  refine BitVec.eq_of_toNat_eq ?_
  have hlt := cnt.isLt
  rw [toNat_getRefCntFromInfo, BitVec.toNat_setWidth]
  show _ = 0
  omega

theorem redoRefCnt_blocks (t : Nat) (m : Mem) : (redoRefCnt t m).blocks = m.blocks := by
  rw [redoRefCnt]
  split
  · rfl
  · rw [if_neg fun h => absurd (h.2.symm.trans (getRefCntFromInfo_saved _)) (by decide)]
    split <;> rfl

/-- Wherever a thread stops between the CAS that lowered a count to 0 and the push of
the block, recovery leaves the state of the segment as it was. -/
theorem redoRefCnt_marks_iff : ∀ s, machine.Reach Machine.free anyMemory s → ∀ t b,
    (s.loc t).dying = some b →
      ((redoRefCnt t s.mem).stateOf b = .potentialLeaking ↔ s.mem.stateOf b = .potentialLeaking) := by
  intro s _ t b _
  rw [Mem.stateOf, Mem.stateOf, redoRefCnt_blocks]

/-- Thread 1 stops after the CAS of the last unlink of an object. -/
def lastUnlink : List (Act Op) := whole 1 (.unlinkReference 8 object) 6

theorem redoRefCnt_marks_iff_lastUnlink :
    ∃ s, machine.runUnder Machine.free lastUnlink (oneWord (packRefInfo 3 1 4) .potentialLeaking) =
        some s ∧ (s.loc 1).dying = some object ∧
      (redoRefCnt 1 s.mem).stateOf object = .potentialLeaking := by
  have hrun : (machine.runUnder Machine.free lastUnlink
      (oneWord (packRefInfo 3 1 4) .potentialLeaking)).any (fun s =>
        decide ((s.loc 1).dying = some object ∧ s.mem.stateOf object = .potentialLeaking)) = true := by
    decide +kernel
  obtain ⟨s, hs, hstop⟩ := (Option.any_eq_true _ _).mp hrun
  obtain ⟨hdying, hstate⟩ := of_decide_eq_true hstop
  exact ⟨s, hs, hdying, (redoRefCnt_marks_iff s
    (.of_runUnder (.init (anyMemory_oneWord _ _)) hs) 1 object hdying).mpr hstate⟩

/-- The record says that the count was 1, and the segment stays unmarked. -/
theorem redoRefCnt_leaves_unmarked :
    ∃ s, machine.runUnder Machine.free lastUnlink (oneWord (packRefInfo 3 1 4) .normal) = some s ∧
      (s.loc 1).dying = some object ∧ (newestRedo (s.mem.redo 1)).savedRefCnt = 1 ∧
      (redoRefCnt 1 s.mem).stateOf object = .normal := by
  have hrun : (machine.runUnder Machine.free lastUnlink (oneWord (packRefInfo 3 1 4) .normal)).any
      (fun s => decide ((s.loc 1).dying = some object ∧
        (newestRedo (s.mem.redo 1)).savedRefCnt = 1 ∧
        (redoRefCnt 1 s.mem).stateOf object = .normal)) = true := by
    decide +kernel
  obtain ⟨s, hs, hstop⟩ := (Option.any_eq_true _ _).mp hrun
  exact ⟨s, hs, of_decide_eq_true hstop⟩

end ShmPcc.CxlRefInfo
