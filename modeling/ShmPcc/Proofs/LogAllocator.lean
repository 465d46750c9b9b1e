import ShmPcc.Ref.LogAllocator

/-!
# Ranges, ids and reads of the log allocator

Three counters and tables, three arguments. The offset of the log only grows, so the range
of a write lies behind all those before it; that is about the typed writes, which count it
from the end of the entries, while the deprecated ones count it from the base of the
mapping, and so write over the metadata. The counter of ids only grows, unless a deprecated
acquire stores into it, so entries from it on have not been touched. And the index keeps the
first address it is given for an id, so that a read finds the first write. A write that does
not fit has moved the offset before it finds out, and does not move it back.
-/

namespace ShmPcc.LogAllocator

open Function

variable {D : Type} {m m' : Mem D} {pc pc' : Pc D} {t : Nat} {op : Op D}

theorem call_eq (h : call t op pc m = some (pc', m')) : (∃ ret, pc = .idle ret) ∧ m' = m := by
  unfold call at h
  split at h <;> cases h <;> exact ⟨⟨_, rfl⟩, rfl⟩

/-! ## Ranges -/

section Extents

theorem run_layout (h : run t pc m = some (pc', m')) :
    m'.meta.base = m.meta.base ∧ m'.meta.maxObjects = m.meta.maxObjects ∧
      m'.meta.logSegmentSize = m.meta.logSegmentSize ∧
      m'.meta.offset = ((pc.reserves m.meta).elim m.meta.offset fun e => (m.meta.offset + e.size) % sizeT) := by
  cases pc <;> simp only [run, Meta.fetchAddOffset, Option.some.injEq, Prod.mk.injEq, reduceCtorEq] at h
  case claimRef id currentRefCount =>
    split at h <;> cases h <;> exact ⟨rfl, rfl, rfl, rfl⟩
  case insert id newPtr =>
    obtain ⟨-, rfl⟩ := h
    rw [Mem.indexInsert]
    split
    · exact ⟨rfl, rfl, rfl, rfl⟩
    · split <;> exact ⟨rfl, rfl, rfl, rfl⟩
  all_goals
    obtain ⟨-, rfl⟩ := h
    exact ⟨rfl, rfl, rfl, rfl⟩

variable {base dataSize maxObjects : Nat} {extents : List Extent}

/-- The layout that `init_allocator` has fixed, and the ranges given out so far: behind the
header, before the offset, and apart from each other. -/
structure Ranges (base dataSize maxObjects : Nat) (x : Mem D × List Extent) : Prop where
  base : x.1.meta.base = base
  maxObjects : x.1.meta.maxObjects = maxObjects
  log : x.1.meta.headerSize + x.1.meta.logSegmentSize = dataSize
  inside : ∀ e ∈ x.2, e.size = 0 ∨ x.1.meta.getSegmentBeginOffset ≤ e.base ∧
    e.base + e.size ≤ x.1.meta.getSegmentBeginOffset + min x.1.meta.offset x.1.meta.logSegmentSize
  apart : x.2.Pairwise fun a b => Disjoint a.bytes b.bytes

theorem bytes_eq_empty {e : Extent} (h : e.size = 0) : e.bytes = ∅ := by
  rw [Extent.bytes, h, Nat.add_zero, Set.Ico_self]

theorem subSizeT_of_le {a b : Nat} (h : b ≤ a) (ha : a < sizeT) : subSizeT a b = a - b := by
  rw [subSizeT, Nat.mod_eq_of_lt (show b < sizeT by omega),
    show a + (sizeT - b) = a - b + sizeT by omega, Nat.add_mod_right, Nat.mod_eq_of_lt (by omega)]

theorem ranges_init (hmap : Mapped base dataSize maxObjects) :
    Ranges base dataSize maxObjects ((initAllocator base dataSize maxObjects : Mem D), []) := by
  obtain ⟨hheader, hsize, -⟩ := hmap
  have hlog : subSizeT (subSizeT dataSize sizeofMeta) (sizeofEntry * maxObjects) =
      dataSize - sizeofMeta - sizeofEntry * maxObjects := by
    rw [subSizeT_of_le (by omega) hsize, subSizeT_of_le (by omega) (by omega)]
  refine ⟨rfl, rfl, ?_, nofun, List.Pairwise.nil⟩
  simp only [initAllocator, Meta.headerSize, hlog]
  omega

/-- The condition of a write at its `fetch_add`: the offset does not overflow, and if it
is a deprecated one, it has no bytes or fails. -/
def Pc.fits (g : Meta) : Pc D → Bool
  | .bumpT _ size _ => g.offset + size < sizeT
  | .bump _ size _ _ => g.offset + size < sizeT && (size == 0 || g.logSegmentSize < g.offset + size)
  | _ => true

def typedWrites (s : Sys (Mem D) (Pc D)) (a : Act (Op D)) : Prop :=
  ∀ t, a = .run t → (s.loc t).fits s.mem.meta = true

instance (s : Sys (Mem D) (Pc D)) : (a : Act (Op D)) → Decidable (typedWrites s a)
  | .call .. => .isTrue nofun
  | .run t => decidable_of_iff ((s.loc t).fits s.mem.meta = true)
      ⟨fun h _ heq => by cases heq; exact h, fun h => h t rfl⟩

theorem reserves_lt {g : Meta} {e : Extent} (hres : pc.reserves g = some e) (hfits : pc.fits g = true) :
    g.offset + e.size < sizeT := by
  cases pc <;> simp only [Pc.reserves, Option.some.injEq, reduceCtorEq] at hres
  case bumpT id size data =>
    subst hres
    exact of_decide_eq_true hfits
  case bump id size refCount oldAddr =>
    subst hres
    exact of_decide_eq_true (Bool.and_eq_true_iff.mp hfits).1

/-- The range of a write that passes the bound check begins where the ranges so far end,
unless it has no bytes. -/
theorem reserves_base {g : Meta} {e : Extent} (hres : pc.reserves g = some e) (hfits : pc.fits g = true)
    (hpass : g.offset + e.size ≤ g.logSegmentSize)
    (hmap : g.getSegmentBeginOffset + g.logSegmentSize ≤ sizeT) :
    e.size = 0 ∨ e.base = g.getSegmentBeginOffset + g.offset := by
  cases pc <;> simp only [Pc.reserves, Option.some.injEq, reduceCtorEq] at hres
  case bumpT id size data =>
    subst hres
    rcases Nat.eq_zero_or_pos size with h0 | hpos
    · exact .inl h0
    · refine .inr (Nat.mod_eq_of_lt ?_)
      dsimp only at hpass
      omega
  case bump id size refCount oldAddr =>
    subst hres
    simp only [Pc.fits, Bool.and_eq_true, decide_eq_true_eq, Bool.or_eq_true, beq_iff_eq] at hfits
    dsimp only at hpass ⊢
    omega

theorem Ranges.step (h : run t pc m = some (pc', m')) (hranges : Ranges base dataSize maxObjects (m, extents))
    (hmap : Mapped base dataSize maxObjects) (hfits : pc.fits m.meta = true) :
    Ranges base dataSize maxObjects (m', logExtents t pc m pc' extents) := by
  obtain ⟨hb, hmax, hlog, hinside, hapart⟩ := hranges
  obtain ⟨hb', hmax', hlog', hoffset⟩ := run_layout h
  dsimp only at hb hmax hlog hinside hapart
  have hheader : m'.meta.headerSize = m.meta.headerSize := by rw [Meta.headerSize, Meta.headerSize, hmax']
  have hbegin : m'.meta.getSegmentBeginOffset = m.meta.getSegmentBeginOffset := by
    rw [Meta.getSegmentBeginOffset, Meta.getSegmentBeginOffset, hb', hheader]
  have hend : m.meta.getSegmentBeginOffset + m.meta.logSegmentSize ≤ sizeT := by
    have := hmap.mapping
    rw [Meta.getSegmentBeginOffset]
    omega
  -- the ranges so far stay in place, however far the offset moves on
  have hkept : m.meta.offset ≤ m'.meta.offset → ∀ e ∈ extents, e.size = 0 ∨
      m'.meta.getSegmentBeginOffset ≤ e.base ∧ e.base + e.size ≤
        m'.meta.getSegmentBeginOffset + min m'.meta.offset m'.meta.logSegmentSize := by
    intro hle e he
    rw [hbegin, hlog']
    refine (hinside e he).imp_right fun h => ⟨h.1, ?_⟩
    omega
  cases hres : pc.reserves m.meta with
  | none =>
    have hsame : logExtents t pc m pc' extents = extents := by rw [logExtents, hres]
    rw [hres] at hoffset
    rw [hsame]
    exact ⟨hb'.trans hb, hmax'.trans hmax, by rw [hheader, hlog']; exact hlog,
      hkept (Nat.le_of_eq hoffset.symm), hapart⟩
  | some e =>
    have hlt := reserves_lt hres hfits
    have hnext : m'.meta.offset = m.meta.offset + e.size := by
      rw [hoffset, hres]
      exact Nat.mod_eq_of_lt hlt
    have hpass : (m.meta.fetchAddOffset e.size).2 = decide (m.meta.offset + e.size ≤ m.meta.logSegmentSize) := by
      rw [Meta.fetchAddOffset, Nat.mod_eq_of_lt hlt]
    have hold := hkept (by omega)
    simp only [logExtents, hres, hpass, decide_eq_true_eq]
    split
    · next hroom =>
      have hbase := reserves_base hres hfits hroom hend
      refine ⟨hb'.trans hb, hmax'.trans hmax, by rw [hheader, hlog']; exact hlog, ?_, ?_⟩
      · intro e' he'
        rcases List.mem_append.mp he' with he' | he'
        · exact hold e' he'
        · rw [List.mem_singleton.mp he', hbegin, hlog', hnext]
          refine hbase.imp_right fun h => ?_
          omega
      · refine List.pairwise_append.mpr ⟨hapart, List.pairwise_singleton .., ?_⟩
        intro a ha b hb
        rw [List.mem_singleton.mp hb]
        rcases hbase with h0 | hbase
        · rw [bytes_eq_empty h0]
          exact Set.disjoint_empty _
        · rcases hinside a ha with h0 | ⟨-, hle⟩
          · rw [bytes_eq_empty h0]
            exact Set.empty_disjoint _
          · exact Extent.disjoint_of_le (by omega)
    · exact ⟨hb'.trans hb, hmax'.trans hmax, by rw [hheader, hlog']; exact hlog, hold, hapart⟩

/-- The allocator on a fresh mapping, with no call under way. -/
def created {H : Type} (x : Mem D × H) (s : Sys (Mem D × H) (Pc D)) : Prop :=
  s.mem = x ∧ ∀ t, s.loc t = .idle .unit

theorem ranges_of_reach {s : Sys (Mem D × List Extent) (Pc D)} (hmap : Mapped base dataSize maxObjects)
    (h : (machine.record logExtents).Reach (fun s a => typedWrites s.forget a)
      (created (initAllocator base dataSize maxObjects, [])) s) :
    Ranges base dataSize maxObjects s.mem := by
  refine (h.invariant (G := Ranges base dataSize maxObjects) (T := fun _ _ _ => True) ?_ ?_).1
  · intro s hs
    rw [Machine.Holds, hs.1]
    exact ⟨ranges_init hmap, fun _ => trivial⟩
  · intro s a l ⟨m, extents⟩ ⟨hranges, _⟩ hfits hact
    obtain ⟨hact, hlog⟩ := Machine.act_record hact
    refine ⟨?_, trivial, fun _ _ => trivial⟩
    rw [show extents = _ from hlog]
    cases a with
    | call t op =>
      obtain ⟨⟨ret, hidle⟩, rfl⟩ := call_eq (t := t) hact
      rw [Act.thread, show s.loc t = _ from hidle]
      exact hranges
    | run t => exact hranges.step hact hmap (hfits t rfl)

/-- Where no write overflows the offset, and no deprecated write gets a range, the ranges
of the writes do not overlap, lie in the log, and keep clear of metadata and entries. -/
theorem extents_disjoint {s : Sys (Mem D × List Extent) (Pc D)} (hmap : Mapped base dataSize maxObjects)
    (h : (machine.record logExtents).Reach (fun s a => typedWrites s.forget a)
      (created (initAllocator base dataSize maxObjects, [])) s) :
    s.mem.2.Pairwise (fun a b => Disjoint a.bytes b.bytes) ∧
      ∀ e ∈ s.mem.2, e.bytes ⊆ (logSegment base dataSize maxObjects).bytes ∧
        Disjoint e.bytes (headerArea base maxObjects).bytes := by
  obtain ⟨hb, hmax, hlog, hinside, hapart⟩ := ranges_of_reach hmap h
  refine ⟨hapart, fun e he => ?_⟩
  rw [Meta.headerSize, hmax] at hlog
  rcases hinside e he with h0 | ⟨hge, hle⟩
  · rw [bytes_eq_empty h0]
    exact ⟨Set.empty_subset _, Set.empty_disjoint _⟩
  · rw [Meta.getSegmentBeginOffset, Meta.headerSize, hb, hmax] at hge hle
    constructor
    · refine Extent.bytes_subset hge ?_
      simp only [logSegment]
      omega
    · exact (Extent.disjoint_of_le hge).symm

/-- An allocator of two objects on a page. -/
def page {H : Type} (x : H) : Sys (Mem Nat × H) (Pc Nat) :=
  ⟨(initAllocator 4096 4096 2, x), fun _ => .idle .unit⟩

/-- Two typed writes at once, and a deprecated one that is too large. -/
def typedAtOnce : List (Act (Op Nat)) :=
  [.call 0 (.writeT 1 16 7), .call 1 (.writeT 2 24 8), .run 1, .run 0, .run 0, .run 1,
    .call 2 (.write 1 4000), .run 2, .run 2, .run 2]

theorem typedAtOnce_run :
    ((machine.record logExtents).runUnder (fun s a => typedWrites s.forget a) typedAtOnce (page [])).any
      fun s => s.mem.2 = [⟨4216, 24⟩, ⟨4240, 16⟩] := by
  decide +kernel

theorem extents_disjoint_typedAtOnce : ∃ s : Sys (Mem Nat × List Extent) (Pc Nat),
    (machine.record logExtents).Reach (fun s a => typedWrites s.forget a)
      (created (initAllocator 4096 4096 2, [])) s ∧ s.mem.2 = [⟨4216, 24⟩, ⟨4240, 16⟩] ∧
      s.mem.2.Pairwise fun a b => Disjoint a.bytes b.bytes := by
  obtain ⟨s, _, hreach, h⟩ :=
    Machine.reach_of_any (created (initAllocator 4096 4096 2, [])) ⟨rfl, fun _ => rfl⟩ typedAtOnce_run
  exact ⟨s, hreach, h,
    (extents_disjoint ⟨by decide, by decide, by decide⟩ hreach).1⟩

/-- A typed write of 16 bytes and then a deprecated one of 120. -/
def mixed : List (Act (Op Nat)) :=
  [.call 0 (.writeT 1 16 7), .run 0, .call 1 (.write 2 120), .run 1, .run 1, .run 1]

theorem mixed_run : ((machine.record logExtents).runUnder Machine.free mixed (page [])).any
    fun s => s.mem.2 = [⟨4216, 16⟩, ⟨4112, 120⟩] := by
  decide +kernel

/-- The deprecated write gets a range that begins among the metadata and the entries and
ends inside the range of the typed one. -/
theorem extents_overlap : ∃ s : Sys (Mem Nat × List Extent) (Pc Nat),
    (machine.record logExtents).Reach Machine.free (created (initAllocator 4096 4096 2, [])) s ∧
      s.mem.2 = [⟨4216, 16⟩, ⟨4112, 120⟩] ∧
      ¬ Disjoint (Extent.mk 4216 16).bytes (Extent.mk 4112 120).bytes ∧
      ¬ Disjoint (Extent.mk 4112 120).bytes (headerArea 4096 2).bytes := by
  obtain ⟨s, _, hreach, h⟩ :=
    Machine.reach_of_any (created (initAllocator 4096 4096 2, [])) ⟨rfl, fun _ => rfl⟩ mixed_run
  refine ⟨s, hreach, h, ?_, ?_⟩
  · rw [Set.not_disjoint_iff]
    exact ⟨4216, ⟨by decide, by decide⟩, by decide, by decide⟩
  · rw [Set.not_disjoint_iff]
    exact ⟨4112, ⟨by decide, by decide⟩, by decide, by decide⟩

end Extents

/-! ## Ids -/

section Ids

variable {ids : List Nat}

/-- The entry that a call is about. -/
def Op.entry : Op D → Option Nat
  | .freeT id | .acquireT id | .releaseT id | .acquire id | .release id | .read id | .write id _ => some id
  | _ => none

def Pc.entry : Pc D → Option Nat
  | .setRef id _ | .setSize id _ | .clearAddr id _ | .clearRef id | .addRef id | .subRef id _
  | .loadRef id | .loadNextId id _ | .claimRef id _ | .storeNextId id | .readAdd id | .readAddr id
  | .writeRef id _ | .writeAddr id _ _ | .bump id _ _ _ | .copy id _ _ _ _ | .exchange id _ _ _ _
  | .testSize id _ _ _ | .storeSize id _ _ _ => some id
  | _ => none

/-- At this step the counter does not overflow, and is not moved back. -/
def Pc.forward (g : Meta) : Pc D → Bool
  | .takeId _ => g.nextId + 1 < 2 ^ 32
  | .storeNextId id => g.nextId ≤ id + 1
  | _ => true

/-- Calls are made with ids that were allocated, and the counter goes forward. -/
def knownIds (s : Sys (Mem D) (Pc D)) : Act (Op D) → Prop
  | .call _ op => ∀ id ∈ op.entry, id < s.mem.meta.nextId
  | .run t => (s.loc t).forward s.mem.meta = true

instance (s : Sys (Mem D) (Pc D)) : (a : Act (Op D)) → Decidable (knownIds s a)
  | .call _ op => inferInstanceAs (Decidable (∀ id ∈ op.entry, id < s.mem.meta.nextId))
  | .run t => inferInstanceAs (Decidable ((s.loc t).forward s.mem.meta = true))

/-- Entries from the counter on have not been used. -/
structure Unused (x : Mem D × List Nat) : Prop where
  small : x.1.meta.nextId < 2 ^ 32
  refCount : ∀ id, x.1.meta.nextId ≤ id → (x.1.entries id).refCount = 0
  taken : ∀ id ∈ x.2, id < x.1.meta.nextId
  nodup : x.2.Nodup

/-- A thread is busy with an entry before the counter. -/
def Known (_ : Nat) (pc : Pc D) (x : Mem D × List Nat) : Prop :=
  ∀ id ∈ pc.entry, id < x.1.meta.nextId

theorem call_entry (h : call t op pc m = some (pc', m')) : pc'.entry = op.entry := by
  unfold call at h
  split at h <;> cases h <;> rfl

theorem entry_dropOld {id : Nat} {refCount : Int} {oldAddr : Nat} :
    ∀ i ∈ (dropOld id refCount oldAddr : Pc D).entry, i = id := by
  rw [dropOld]
  split <;> simp [Pc.entry]

theorem setEntry_of_ne {f : Entry → Entry} {id i : Nat} (h : ¬ id = i) :
    (m.setEntry id f).entries i = m.entries i :=
  update_of_ne (Ne.symm h) ..

theorem indexInsert_entries {key value : Nat} : (m.indexInsert key value).entries = m.entries := by
  rw [Mem.indexInsert]
  split
  · rfl
  · split <;> rfl

theorem run_entry (h : run t pc m = some (pc', m')) (hpc : ∀ size, pc ≠ .takeId size) :
    (∀ id ∈ pc'.entry, id ∈ pc.entry) ∧ ∀ id, id ∉ pc.entry → m'.entries id = m.entries id := by
  cases pc <;> simp only [run, Option.some.injEq, Prod.mk.injEq, reduceCtorEq] at h
  case takeId size => exact absurd rfl (hpc size)
  case claimRef id currentRefCount =>
    split at h <;> cases h
    · exact ⟨fun i hi => hi, fun i hi => setEntry_of_ne (by simpa [Pc.entry] using hi)⟩
    · exact ⟨fun i hi => hi, fun i hi => rfl⟩
  case insert id newPtr =>
    obtain ⟨rfl, rfl⟩ := h
    exact ⟨nofun, fun i _ => by rw [indexInsert_entries]⟩
  case testSize id size refCount oldAddr =>
    obtain ⟨rfl, rfl⟩ := h
    refine ⟨fun i hi => ?_, fun i _ => rfl⟩
    split at hi
    · exact hi
    · exact (entry_dropOld i hi).symm ▸ rfl
  case storeSize id size refCount oldAddr =>
    obtain ⟨rfl, rfl⟩ := h
    exact ⟨fun i hi => (entry_dropOld i hi).symm ▸ rfl,
      fun i hi => setEntry_of_ne (by simpa [Pc.entry] using hi)⟩
  all_goals
    obtain ⟨rfl, rfl⟩ := h
    constructor
    · intro i hi
      first
        | exact hi
        | cases hi
        | (split at hi <;> first | exact hi | cases hi)
    · intro i hi
      first
        | rfl
        | exact setEntry_of_ne (by simpa [Pc.entry] using hi)

theorem run_nextId (h : run t pc m = some (pc', m')) (htake : ∀ size, pc ≠ .takeId size)
    (hstore : ∀ id, pc ≠ .storeNextId id) : m'.meta.nextId = m.meta.nextId := by
  cases pc <;> simp only [run, Meta.fetchAddOffset, Option.some.injEq, Prod.mk.injEq, reduceCtorEq] at h
  case takeId size => exact absurd rfl (htake size)
  case storeNextId id => exact absurd rfl (hstore id)
  case claimRef id currentRefCount => split at h <;> cases h <;> rfl
  case insert id newPtr =>
    obtain ⟨-, rfl⟩ := h
    rw [Mem.indexInsert]
    split
    · rfl
    · split <;> rfl
  all_goals
    obtain ⟨-, rfl⟩ := h
    rfl

theorem logIds_of_ne (htake : ∀ size, pc ≠ .takeId size) : logIds t pc m pc' ids = ids := by
  cases pc with
  | takeId size => exact absurd rfl (htake size)
  | _ => rfl

theorem Unused.step (h : run t pc m = some (pc', m')) (hunused : Unused (m, ids))
    (hknown : Known t pc (m, ids)) (hforward : pc.forward m.meta = true) :
    Unused (m', logIds t pc m pc' ids) ∧ Known t pc' (m', logIds t pc m pc' ids) ∧
      m.meta.nextId ≤ m'.meta.nextId := by
  obtain ⟨hsmall, href, htaken, hnodup⟩ := hunused
  dsimp only at hsmall href htaken
  by_cases htake : ∃ size, pc = .takeId size
  · obtain ⟨size, rfl⟩ := htake
    obtain ⟨rfl, rfl⟩ := h
    have hlt : m.meta.nextId + 1 < 2 ^ 32 := of_decide_eq_true hforward
    have hnext : (m.meta.nextId + 1) % 2 ^ 32 = m.meta.nextId + 1 := Nat.mod_eq_of_lt hlt
    simp only [logIds, Known, hnext]
    refine ⟨⟨by simpa [hnext] using hlt, ?_, ?_, ?_⟩, ?_, Nat.le_succ _⟩
    · intro id hid
      exact href id (by dsimp only at hid; omega)
    · intro id hid
      rcases List.mem_append.mp hid with hold | hnew
      · exact Nat.lt_succ_of_lt (htaken id hold)
      · rw [List.mem_singleton.mp hnew]
        exact Nat.lt_succ_self _
    · refine List.nodup_append.mpr ⟨hnodup, by simp, ?_⟩
      intro a ha b hb heq
      rw [List.mem_singleton.mp hb] at heq
      exact absurd (htaken a ha) (by omega)
    · intro id hid
      split at hid
      · cases hid
        exact Nat.lt_succ_self _
      · cases hid
  · have htake : ∀ size, pc ≠ .takeId size := fun size heq => htake ⟨size, heq⟩
    obtain ⟨hentry, hentries⟩ := run_entry h htake
    -- the counter stays where it is, also where it is stored
    have hnext : m'.meta.nextId = m.meta.nextId := by
      by_cases hstore : ∃ id, pc = .storeNextId id
      · obtain ⟨id, rfl⟩ := hstore
        obtain ⟨-, rfl⟩ := h
        have hlt : id < m.meta.nextId := hknown id rfl
        have hle : m.meta.nextId ≤ id + 1 := of_decide_eq_true hforward
        rw [show id + 1 = m.meta.nextId by omega, Nat.mod_eq_of_lt hsmall]
      · exact run_nextId h htake fun id heq => hstore ⟨id, heq⟩
    rw [logIds_of_ne htake]
    refine ⟨⟨?_, ?_, ?_, hnodup⟩, ?_, Nat.le_of_eq hnext.symm⟩
    · rw [hnext]
      exact hsmall
    · intro id hid
      rw [hnext] at hid
      rw [hentries id fun hmem => absurd (hknown id hmem) (Nat.not_lt.mpr hid)]
      exact href id hid
    · intro id hid
      rw [hnext]
      exact htaken id hid
    · intro id hid
      rw [hnext]
      exact hknown id (hentry id hid)

theorem unused_of_reach {base dataSize maxObjects : Nat} {s : Sys (Mem D × List Nat) (Pc D)}
    (h : (machine.record logIds).Reach (fun s a => knownIds s.forget a)
      (created (initAllocator base dataSize maxObjects, [])) s) : Machine.Holds Unused Known s := by
  refine h.invariant ?_ ?_
  · intro s hs
    refine ⟨?_, fun t => ?_⟩
    · rw [hs.1]
      exact ⟨Nat.two_pow_pos 32, fun _ _ => rfl, nofun, List.nodup_nil⟩
    · rw [hs.2 t]
      exact nofun
  · intro s a pc ⟨m, ids⟩ ⟨hunused, hknown⟩ hknows hact
    obtain ⟨hact, hlog⟩ := Machine.act_record hact
    rw [show ids = _ from hlog]
    cases a with
    | call t op =>
      have hentry : pc.entry = op.entry := call_entry (t := t) hact
      obtain ⟨⟨ret, hidle⟩, rfl⟩ := call_eq (t := t) hact
      rw [Act.thread, show s.loc t = _ from hidle]
      refine ⟨hunused, fun id hid => ?_, fun u _ => hknown u⟩
      rw [hentry] at hid
      exact hknows id hid
    | run t =>
      obtain ⟨hunused', hknown', hle⟩ := hunused.step hact (hknown t) hknows
      exact ⟨hunused', hknown', fun u _ id hid => (hknown u id hid).trans_le hle⟩

/-- Objects 0 and 1 are allocated, the last one is given up and acquired again, and a
third one is allocated. -/
def reacquired : List (Act (Op Nat)) :=
  [Act.call 0 (Op.allocateT 8), Act.call 1 (Op.allocate 8), Act.run 0, Act.run 1] ++
    List.replicate 3 (Act.run 0) ++ List.replicate 3 (Act.run 1) ++
    [Act.call 0 (Op.releaseT 1), Act.run 0, Act.call 1 (Op.acquire 1)] ++
    List.replicate 4 (Act.run 1) ++
    [Act.call 0 (Op.allocateT 8), Act.run 0, Act.call 1 (Op.allocate 8)]

theorem reacquired_run :
    ((machine.record logIds).runUnder (fun s a => knownIds s.forget a) reacquired
      ⟨(initAllocator 4096 4096 8, []), fun _ => .idle .unit⟩).any fun s =>
      s.mem.2 = [0, 1, 2] ∧ s.loc 1 = .takeId 8 := by
  decide +kernel

/-- Three objects are allocated, the first one is freed and acquired again, and one more
is about to be allocated. -/
def movedBack : List (Act (Op Nat)) :=
  Act.call 0 (Op.allocateT 8) :: List.replicate 4 (Act.run 0) ++ Act.call 0 (Op.allocateT 8) ::
    List.replicate 4 (Act.run 0) ++ Act.call 0 (Op.allocateT 8) :: List.replicate 4 (Act.run 0) ++
    [Act.call 0 (Op.freeT 0), Act.run 0, Act.run 0, Act.call 0 (Op.acquire 0), Act.run 0, Act.run 0,
      Act.run 0, Act.run 0, Act.call 0 (Op.allocateT 8)]

def inUse (s : Sys (Mem Nat × List Nat) (Pc Nat)) : Prop :=
  s.loc 0 = .takeId 8 ∧ 0 < (s.mem.1.entries s.mem.1.meta.nextId).refCount

instance (s : Sys (Mem Nat × List Nat) (Pc Nat)) : Decidable (inUse s) :=
  inferInstanceAs (Decidable (_ ∧ _))

theorem movedBack_run : ((machine.record logIds).runUnder Machine.free movedBack
    ⟨(initAllocator 4096 4096 8, []), fun _ => .idle .unit⟩).any fun s => inUse s := by
  decide +kernel

theorem movedBack_taken_run : ((machine.record logIds).runUnder Machine.free (movedBack ++ [.run 0])
    ⟨(initAllocator 4096 4096 8, []), fun _ => .idle .unit⟩).any fun s => s.mem.2 = [0, 1, 2, 1] := by
  decide +kernel

end Ids

/-! ## Reads -/

section Reads

variable {size id : Nat} {d : D} {ops : List (Op D)}

theorem exec_allocateT {sizeofT : Nat} {ret : Ret D} (h : exec (.allocateT sizeofT) m = some (ret, m')) :
    m'.meta = { m.meta with nextId := m'.meta.nextId } ∧ m'.index = m.index ∧ m'.data = m.data := by
  simp only [exec, call, finish, run, Option.bind_some] at h
  split at h
  · cases h
    exact ⟨rfl, rfl, rfl⟩
  · cases h

theorem exec_readT {uninit : Nat} : exec (.readT id uninit) m =
    some (if m.indexRead id uninit = 0 then .nullptr
      else .segment ((m.data (m.indexRead id uninit)).map Prod.snd), m) := by
  rfl

/-- A write that fits copies its segment to the end of the log and links it. -/
theorem exec_writeT (hfits : m.meta.offset + size ≤ m.meta.logSegmentSize)
    (hlog : m.meta.logSegmentSize < sizeT) : exec (.writeT id size d) m = some (.unit,
      ({ m with «meta».offset := m.meta.offset + size }.copy m.meta.newPtrT size (some d)).indexInsert id
        m.meta.newPtrT) := by
  have hmod : (m.meta.offset + size) % sizeT = m.meta.offset + size := Nat.mod_eq_of_lt (by omega)
  simp [exec, call, finish, run, Meta.fetchAddOffset, hmod, hfits]

/-- The log after the calls `ops`: a key of the index leads to the segment of the first
write to it, which lies before the offset. -/
structure Linked (size : Nat) (ops : List (Op D)) (m : Mem D) : Prop where
  small : m.meta.logSegmentSize < sizeT
  mapping : m.meta.getSegmentBeginOffset + m.meta.logSegmentSize ≤ sizeT
  linked : ∀ {key a}, m.index key = some a → m.meta.getSegmentBeginOffset ≤ a ∧
    a + size ≤ m.meta.getSegmentBeginOffset + m.meta.offset ∧
    ∃ d, (writes key ops).head? = some d ∧ m.data a = some (size, d)
  unlinked : ∀ {key}, key ≠ 0 → m.index key = none → writes key ops = []

theorem writes_concat (key : Nat) (op : Op D) : writes key (ops ++ [op]) = writes key ops ++ writes key [op] :=
  List.filterMap_append

theorem writes_writeT (key : Nat) : writes key [.writeT id size d] = if id = key then [d] else [] := by
  rw [writes, List.filterMap_cons]
  split <;> simp_all

theorem Linked.quiet {op : Op D} (h : Linked size ops m) (hwrites : ∀ key, writes key [op] = [])
    (hmeta : m'.meta = { m.meta with nextId := m'.meta.nextId }) (hindex : m'.index = m.index)
    (hdata : m'.data = m.data) : Linked size (ops ++ [op]) m' := by
  have hsame : ∀ key, writes key (ops ++ [op]) = writes key ops := by
    intro key
    rw [writes_concat, hwrites, List.append_nil]
  refine ⟨?_, ?_, ?_, ?_⟩
  · rw [hmeta]
    exact h.small
  · rw [hmeta]
    exact h.mapping
  · intro key a ha
    rw [hindex] at ha
    rw [hsame, hdata, hmeta]
    exact h.linked ha
  · intro key h0 hkey
    rw [hindex] at hkey
    rw [hsame]
    exact h.unlinked h0 hkey

theorem copy_of_le {addr a n : Nat} {x : Option D} {y : D} (hy : m.data a = some (n, y)) (hle : a + n ≤ addr)
    (hpos : 0 < n) : (m.copy addr size x).data a = some (n, y) := by
  have hne : a ≠ addr := by omega
  simp [Mem.copy, hne, hy, hle]

theorem Linked.write (h : Linked size ops m) (hpos : 0 < size)
    (hfits : m.meta.offset + size ≤ m.meta.logSegmentSize) : Linked size (ops ++ [.writeT id size d])
      (({ m with «meta».offset := m.meta.offset + size }.copy m.meta.newPtrT size (some d)).indexInsert id
        m.meta.newPtrT) := by
  have hptr : m.meta.newPtrT = m.meta.getSegmentBeginOffset + m.meta.offset := by
    have := h.mapping
    exact Nat.mod_eq_of_lt (by omega)
  -- segments that are linked already lie before the new one, and stay
  have hold : ∀ {key a}, m.index key = some a → m.meta.getSegmentBeginOffset ≤ a ∧
      a + size ≤ m.meta.getSegmentBeginOffset + (m.meta.offset + size) ∧
      ∃ d', (writes key (ops ++ [.writeT id size d])).head? = some d' ∧
        ({ m with «meta».offset := m.meta.offset + size }.copy m.meta.newPtrT size (some d)).data a =
          some (size, d') := by
    intro key a ha
    obtain ⟨hge, hle, d', hd, hdata⟩ := h.linked ha
    refine ⟨hge, by omega, d', ?_, copy_of_le hdata (by omega) hpos⟩
    rw [writes_concat, List.head?_append, hd]
    rfl
  have hother : ∀ {key}, key ≠ id → writes key (ops ++ [.writeT id size d]) = writes key ops := by
    intro key hne
    rw [writes_concat, writes_writeT, if_neg (Ne.symm hne), List.append_nil]
  by_cases h0 : id = 0
  · rw [Mem.indexInsert, if_pos h0]
    refine ⟨h.small, h.mapping, hold, fun hkey hnone => ?_⟩
    rw [hother (by omega)]
    exact h.unlinked hkey hnone
  · cases hid : m.index id with
    | some a =>
      have hsame : ({ m with «meta».offset := m.meta.offset + size }.copy m.meta.newPtrT size
          (some d)).index id = some a := hid
      rw [Mem.indexInsert, if_neg h0, hsame]
      refine ⟨h.small, h.mapping, hold, fun {key} hkey hnone => ?_⟩
      have hne : key ≠ id := by
        intro heq
        rw [heq, hsame] at hnone
        cases hnone
      rw [hother hne]
      exact h.unlinked hkey hnone
    | none =>
      have hsame : ({ m with «meta».offset := m.meta.offset + size }.copy m.meta.newPtrT size
          (some d)).index id = none := hid
      rw [Mem.indexInsert, if_neg h0, hsame]
      refine ⟨h.small, h.mapping, fun {key a} ha => ?_, fun {key} hkey hnone => ?_⟩
      · dsimp only at ha
        by_cases heq : key = id
        · subst heq
          rw [update_self] at ha
          cases ha
          refine ⟨?_, ?_, d, ?_, ?_⟩
          · show m.meta.getSegmentBeginOffset ≤ m.meta.newPtrT
            omega
          · show m.meta.newPtrT + size ≤ m.meta.getSegmentBeginOffset + (m.meta.offset + size)
            omega
          · rw [writes_concat, h.unlinked h0 hid, writes_writeT, if_pos rfl]
            rfl
          · simp [Mem.copy]
        · rw [update_of_ne heq] at ha
          exact hold ha
      · dsimp only at hnone
        have hne : key ≠ id := by
          intro heq
          rw [heq, update_self] at hnone
          cases hnone
        rw [update_of_ne hne] at hnone
        rw [hother hne]
        exact h.unlinked hkey hnone

theorem Linked.exec {op : Op D} {ret : Ret D} (h : Linked size ops m) (hpos : 0 < size)
    (htyped : op.isTyped size = true) (hfits : op.fits m.meta = true) (hexec : exec op m = some (ret, m')) :
    Linked size (ops ++ [op]) m' := by
  cases op <;> simp only [Op.isTyped, Bool.false_eq_true, decide_eq_true_eq] at htyped
  case allocateT sizeofT =>
    obtain ⟨hmeta, hindex, hdata⟩ := exec_allocateT hexec
    exact h.quiet (fun _ => rfl) hmeta hindex hdata
  case readT id uninit =>
    cases hexec
    exact h.quiet (fun _ => rfl) rfl rfl rfl
  case writeT id size' data =>
    subst htyped
    have hroom : m.meta.offset + size' ≤ m.meta.logSegmentSize := of_decide_eq_true hfits
    rw [exec_writeT hroom h.small] at hexec
    cases hexec
    exact h.write hpos hroom

theorem Linked.execAll {ops' : List (Op D)} (hpos : 0 < size) (htyped : ∀ op ∈ ops', op.isTyped size = true) :
    ∀ {ops : List (Op D)} {m m' : Mem D}, Linked size ops m → execAll ops' m = some m' →
      Linked size (ops ++ ops') m' := by
  induction ops' with
  | nil =>
    intro ops m m' h hrun
    cases hrun
    rw [List.append_nil]
    exact h
  | cons op ops' ih =>
    intro ops m m' h hrun
    rw [LogAllocator.execAll] at hrun
    split at hrun
    · next hfits =>
      obtain ⟨x, hx, hrun⟩ := Option.bind_eq_some_iff.mp hrun
      have hnext := h.exec hpos (htyped op (.head _)) hfits hx
      have hall := ih (fun op' hop => htyped op' (.tail _ hop)) hnext hrun
      rwa [List.append_assoc, List.singleton_append] at hall
    · cases hrun

variable {base dataSize maxObjects : Nat}

theorem linked_init (hmap : Mapped base dataSize maxObjects) :
    Linked size [] (initAllocator base dataSize maxObjects : Mem D) := by
  have hlog := (ranges_init (D := D) hmap).log
  have hsize := hmap.size
  have hmapping := hmap.mapping
  dsimp only at hlog
  refine ⟨by omega, ?_, nofun, fun _ _ => rfl⟩
  rw [Meta.getSegmentBeginOffset, show (initAllocator base dataSize maxObjects : Mem D).meta.base = base from rfl]
  omega

/-- The read of an id finds the first write to it. -/
theorem readT_first (hmap : Mapped base dataSize maxObjects) (hpos : 0 < size)
    (htyped : ∀ op ∈ ops, op.isTyped size = true)
    (hrun : execAll ops (initAllocator base dataSize maxObjects) = some m) (hid : id ≠ 0)
    (hwritten : writes id ops ≠ []) (uninit : Nat) :
    exec (.readT id uninit) m = some (.segment (writes id ops).head?, m) := by
  have hlinked : Linked size ops m := Linked.execAll hpos htyped (linked_init hmap) hrun
  cases hkey : m.index id with
  | none => exact absurd (hlinked.unlinked hid hkey) hwritten
  | some a =>
    obtain ⟨hge, -, d, hd, hdata⟩ := hlinked.linked hkey
    have hread : m.indexRead id uninit = a := by rw [Mem.indexRead, if_neg hid, hkey]; rfl
    have ha : a ≠ 0 := by
      rw [Meta.getSegmentBeginOffset, Meta.headerSize, sizeofMeta] at hge
      omega
    rw [exec_readT, hread, if_neg ha, hdata, hd]
    rfl

/-- Where an id is not 0 and no write changes what it was first written with, a read of it
returns the data of the last write. -/
theorem readT_last_write (hmap : Mapped base dataSize maxObjects) (hpos : 0 < size)
    (htyped : ∀ op ∈ ops, op.isTyped size = true)
    (hrun : execAll ops (initAllocator base dataSize maxObjects) = some m) (hid : id ≠ 0)
    (hlast : (writes id ops).getLast? = some d) (hsame : ∀ d' ∈ writes id ops, d' = d) (uninit : Nat) :
    exec (.readT id uninit) m = some (.segment (some d), m) := by
  have hmem : d ∈ writes id ops := List.mem_of_getLast? hlast
  rw [readT_first hmap hpos htyped hrun hid (List.ne_nil_of_mem hmem)]
  cases hwrites : writes id ops with
  | nil =>
    rw [hwrites] at hmem
    cases hmem
  | cons d' rest =>
    rw [hsame d' (by rw [hwrites]; exact List.mem_cons_self ..)]
    rfl

/-- Two objects are allocated and both written, in the other order. -/
def writtenOnce : List (Op Nat) :=
  [.allocateT 8, .allocateT 8, .writeT 1 16 7, .readT 1 0, .writeT 0 16 8]

theorem readT_last_write_writtenOnce : ∃ m : Mem Nat,
    execAll writtenOnce (initAllocator 4096 4096 2) = some m ∧
      exec (.readT 1 0) m = some (.segment (some 7), m) := by
  have hsome : (execAll writtenOnce (initAllocator 4096 4096 2)).isSome = true := by decide +kernel
  obtain ⟨m, hm⟩ := Option.isSome_iff_exists.mp hsome
  exact ⟨m, hm, readT_last_write ⟨by decide, by decide, by decide⟩ (show 0 < 16 by decide) (by decide) hm
    (by decide) (by decide) (by decide) 0⟩

/-- Object 1 is written twice. -/
def writtenTwice : List (Op Nat) :=
  [.allocateT 8, .allocateT 8, .writeT 1 16 7, .writeT 1 16 9]

/-- The first object has id 0, which the index refuses: a read returns null, or follows
whatever pointer was in the variable. And a second write to an id is lost. -/
theorem write_not_read :
    ((execAll [.allocateT 8, .writeT 0 16 7] (initAllocator 4096 4096 2)).bind fun m =>
      (exec (.readT 0 0) m).map Prod.fst) = some (Ret.nullptr : Ret Nat) ∧
    ((execAll writtenTwice (initAllocator 4096 4096 2)).bind fun m =>
      (exec (.readT 1 0) m).map Prod.fst) = some (.segment (some 7)) := by
  decide +kernel

end Reads

/-! ## Writes that fail -/

/-- The size of the range that a write takes. -/
def Op.claims : Op D → Option Nat
  | .writeT _ size _ | .write _ size => some size
  | _ => none

theorem exec_dropOld {id : Nat} {refCount : Int} {oldAddr n : Nat} {ret : Ret D}
    (h : finish (n + 1) (dropOld id refCount oldAddr) m = some (ret, m')) : ret = .unit := by
  rw [dropOld] at h
  split at h
  · simp only [finish, run, Option.bind_some, Option.some.injEq, Prod.mk.injEq] at h
    exact h.1.symm
  · simp only [finish, Option.some.injEq, Prod.mk.injEq] at h
    exact h.1.symm

theorem exec_write {size : Nat} {ret : Ret D} (hclaims : op.claims = some size)
    (h : exec op m = some (ret, m')) :
    if (m.meta.fetchAddOffset size).2 then ret = .unit
    else ret = .outOfMemory ∧ m' = { m with «meta» := (m.meta.fetchAddOffset size).1 } := by
  cases op with
  | writeT id size' data =>
    cases hclaims
    simp only [exec, call, Option.bind_some, finish, run] at h
    split at h
    · next hfits =>
      rw [if_pos hfits]
      cases h
      rfl
    · next hfits =>
      rw [if_neg hfits]
      cases h
      exact ⟨rfl, rfl⟩
  | write id size' =>
    cases hclaims
    simp only [exec, call, Option.bind_some, finish, run] at h
    split at h
    · next hfits =>
      rw [if_pos hfits]
      simp only [finish, run, Option.bind_some] at h
      split at h
      · exact exec_dropOld h
      · exact exec_dropOld h
    · next hfits =>
      rw [if_neg hfits]
      cases h
      exact ⟨rfl, rfl⟩
  | _ => cases hclaims

/-- Writes one after the other that all fail. -/
def failAll : List (Op D) → Mem D → Option (Mem D)
  | [], m => some m
  | op :: ops, m =>
    match exec op m with
    | some (.outOfMemory, m') => failAll ops m'
    | _ => none

/-- The bytes that writes ask for. -/
def claimed (ops : List (Op D)) : Nat := (ops.map fun op => op.claims.getD 0).sum

theorem failAll_eq : ∀ {ops : List (Op D)} {m : Mem D}, (∀ op ∈ ops, op.claims.isSome = true) →
    m.meta.offset < sizeT → failAll ops m = some m' →
    m' = { m with «meta».offset := (m.meta.offset + claimed ops) % sizeT } := by
  intro ops
  induction ops with
  | nil =>
    intro m _ hlt h
    cases h
    simp [claimed, Nat.mod_eq_of_lt hlt]
  | cons op ops ih =>
    intro m hops hlt h
    obtain ⟨size, hsize⟩ := Option.isSome_iff_exists.mp (hops op List.mem_cons_self)
    rw [failAll] at h
    split at h
    · next m₁ hexec =>
      have hwrite := exec_write hsize hexec
      split at hwrite
      · cases hwrite
      · rw [ih (fun op' hop' => hops op' (List.mem_cons_of_mem op hop'))
          (by rw [hwrite.2]; exact Nat.mod_lt _ (by decide)) h, hwrite.2]
        simp [claimed, hsize, Meta.fetchAddOffset, Nat.add_assoc]
    · cases h

/-- Failed writes leave everything as it was, but for the offset: this is so exactly if the
sizes they asked for add up to nothing, and then every later call goes as before. -/
theorem failed_writes_change_nothing_iff {ops : List (Op D)} (hops : ∀ op ∈ ops, op.claims.isSome = true)
    (hlt : m.meta.offset < sizeT) (h : failAll ops m = some m') :
    (m' = m ↔ claimed ops % sizeT = 0) ∧ (claimed ops % sizeT = 0 → ∀ op, exec op m' = exec op m) ∧
    m' = { m with «meta».offset := m'.meta.offset } := by
  obtain rfl := failAll_eq hops hlt h
  have hkept : (m.meta.offset + claimed ops) % sizeT = m.meta.offset ↔ claimed ops % sizeT = 0 := by
    rw [sizeT] at *
    omega
  refine ⟨?_, ?_, rfl⟩
  · constructor
    · intro heq
      exact hkept.mp (congrArg (fun x : Mem D => x.meta.offset) heq)
    · intro hzero
      rw [hkept.mpr hzero]
  · intro hzero op
    rw [hkept.mpr hzero]

/-- Behind the end of the log a write of no bytes fails too. -/
theorem failed_writes_change_nothing_iff_noBytes : ∃ m' : Mem Nat,
    failAll [.write 0 0] { initAllocator 4096 4096 2 with «meta».offset := 5000 } = some m' ∧
      m' = { initAllocator 4096 4096 2 with «meta».offset := 5000 } := by
  have hsome : (failAll [.write 0 0] { (initAllocator 4096 4096 2 : Mem Nat) with
      «meta».offset := 5000 }).isSome = true := by decide +kernel
  obtain ⟨m', hm⟩ := Option.isSome_iff_exists.mp hsome
  exact ⟨m', hm, (failed_writes_change_nothing_iff (by decide) (by decide) hm).1.mpr rfl⟩

/-- 100 bytes fit in the log until a write of 5000 fails, and not after it. -/
theorem failed_write_takes_space :
    ((exec (.write 0 100) (initAllocator 4096 4096 2)).map Prod.fst : Option (Ret Nat)) = some .unit ∧
    ((exec (.write 0 5000) (initAllocator 4096 4096 2)).bind fun x : Ret Nat × Mem Nat =>
      (exec (.write 0 100) x.2).map fun y => (x.1, y.1)) = some (.outOfMemory, .outOfMemory) := by
  decide +kernel

end ShmPcc.LogAllocator
