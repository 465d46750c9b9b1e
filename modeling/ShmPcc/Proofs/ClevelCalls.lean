import ShmPcc.Proofs.ClevelSeq

/-!
# The operations of `clevel_hash`, each run alone

For each operation, that it returns when nothing interferes, what it returns,
and which map the table holds afterwards. The `while (true)` loops go round at
most twice then: a second round follows an `expand`, or the redo check of
`generic_update`.

The one thing that can go wrong is the array of `MAX_LEVEL` level pointers in
`find`. `Fits` says that the chain, with the level that the operation may have
to append, is not longer than the array.
-/

namespace ShmPcc.ClevelHash

open Function Prog

variable {K T : Type} {H : Table K} {m : Mem K T} {abs : K → Option T}

theorem Seq.search_runs [DecidableEq K] (h : Seq H m abs) (hr : 1 ≤ H.retries) (key : K) :
    (search H key).runs (fun r m' => m' = m ∧ r.found = (abs key).isSome ∧
      r.value = (abs key).map fun v => (key, v)) m := by
  obtain ⟨n, hn⟩ := Nat.exists_eq_add_of_le' hr
  have hc := h.chain
  have htop := h.top
  rw [search, runs_bind, runs_loadMeta, hn, searchLoop, runs_bind]
  refine runs_mono ?_ (searchLevels_runs h.placed key m.cur (by omega) m.cur.span
    m.cur.lastLevel 0 (by rw [Meta.span]; omega) (by rw [Meta.span]; omega))
  rintro r m' ⟨rfl, hsome, hnone⟩
  cases r with
  | some r =>
    obtain ⟨hf, q, v, hq, hv⟩ := hsome r rfl
    have habs := (h.rep.holds key v).mpr ⟨q, hq⟩
    refine ⟨rfl, ?_, ?_⟩
    · rw [hf, habs]
      rfl
    · rw [hv, habs]
      rfl
  | none =>
    simp only [runs_bind, runs_loadMeta, if_true]
    have habs : abs key = none := by
      cases hk : abs key with
      | none => rfl
      | some v =>
        obtain ⟨q, hq⟩ := (h.rep.holds key v).mp hk
        have hl := h.live q (h.placed.of_entryAt hq).2.2
        exact absurd hq (hnone rfl q v hl.1 hl.2)
    refine ⟨rfl, ?_, ?_⟩ <;> rw [habs] <;> rfl

/-! ## `expand` -/

theorem Seq.expand_runs (h : Seq H m abs) (hp : 2 ≤ H.hashpower) (hr : 1 ≤ H.retries) :
    (expand H m.metaPtr m.cur).runs (fun _ m' => m' = m.grown) m := by
  obtain ⟨n, hn⟩ := Nat.exists_eq_add_of_le' hr
  have htop := h.top
  have hcap := Table.capacity_lt_succ hp m.cur.firstLevel
  rw [expand, runs_bind, runs_loadUp, if_neg (by omega)]
  simp only [runs_bind, casUp, runs_rmw, if_pos htop.symm, hn, publishLoop,
    if_neg (Nat.not_le.mpr hcap), runs_loadUp]
  rw [if_pos (by omega)]
  simp only [runs_bind, casMeta, runs_rmw, if_true, beq_self_eq_true]
  rfl

/-! ## `generic_insert` -/

/-- The key is in the table. -/
def Mem.Has (m : Mem K T) (key : K) : Prop := ∃ q v, m.entryAt q = some (key, v)

/-- An empty slot that an insert of the key may use. -/
def Mem.HasRoom (H : Table K) (m : Mem K T) (key : K) : Prop :=
  ∃ q, H.Reads key m.cur.lastLevel m.cur.span q ∧ m.slots q = 0 ∧
    (m.cur.lastLevel < q.level ∨ m.cur.isResizing = false)

theorem Seq.has_iff (h : Seq H m abs) (key : K) : m.Has key ↔ (abs key).isSome = true := by
  rw [Option.isSome_iff_exists]
  constructor
  · rintro ⟨q, v, hq⟩
    exact ⟨v, (h.rep.holds key v).mpr ⟨q, hq⟩⟩
  · rintro ⟨v, hv⟩
    obtain ⟨q, hq⟩ := (h.rep.holds key v).mp hv
    exact ⟨q, v, hq⟩

/-- Where a key can be found at all in a sequential run. -/
theorem Seq.reads_of_entryAt (h : Seq H m abs) {q : Slot} {key : K} {v : T}
    (hq : m.entryAt q = some (key, v)) : H.Reads key m.cur.lastLevel m.cur.span q := by
  obtain ⟨_, hslot, hne⟩ := h.placed.of_entryAt hq
  have hl := h.live q hne
  have hc := h.chain
  refine ⟨hslot, hl.1, ?_⟩
  rw [Meta.span]
  omega

/-- What `insert` does to the map. -/
def insertMap [DecidableEq K] (abs : K → Option T) (key : K) (value : T) : K → Option T :=
  match abs key with
  | some _ => abs
  | none => update abs key (some value)

/-- The entry of an operation in progress: allocated, and in no slot. -/
structure Fresh (m : Mem K T) (kv : Word) (item : K × T) : Prop where
  ne : kv ≠ 0
  addr_eq : addr kv = kv
  entry : m.entries kv = some item
  unused : ∀ q, m.slots q ≠ 0 → addr (m.slots q) ≠ kv

variable {kv : Word}

theorem Fresh.placed {key : K} {value : T} (hf : Fresh m kv (key, value)) {q : Slot}
    (hq : H.IsSlot key q) : Placed H m.entries q (setPartial kv (H.par key)) := by
  refine ⟨?_, (key, value), ?_, ?_, hq⟩
  · rw [addr_setPartial hf.addr_eq]
    exact hf.ne
  · rw [addr_setPartial hf.addr_eq]
    exact hf.entry
  · exact partialOf_setPartial kv (H.par key)

theorem Seq.delete_fresh (h : Seq H m abs) {item : K × T} (hf : Fresh m kv item) :
    Seq H (m.release kv) abs := by
  have hE : ∀ q, m.slots q ≠ 0 →
      update m.entries kv none (addr (m.slots q)) = m.entries (addr (m.slots q)) :=
    fun q hq => update_of_ne (hf.unused q hq) ..
  exact (h.entries hE).book _ _ _ _ _

/-- An address that `new` may return. -/
def Available (m : Mem K T) (kv : Word) : Prop := kv ≠ 0 ∧ addr kv = kv ∧ m.entries kv = none

theorem runs_newEntry {t : Nat} {item : K × T} (ha : Available m kv) {Q : Unit → Mem K T → Prop} :
    (newEntry t kv item).runs Q m ↔ Q () (m.allocate t kv item) := by
  have hnew : kv ≠ 0 ∧ addr kv = kv ∧ m.entries kv = none := ha
  simp only [newEntry, runs_step]
  rw [if_pos hnew, if_pos hnew, runs_ret]

theorem Seq.allocate (h : Seq H m abs) (t : Nat) (item : K × T) (ha : Available m kv) :
    Seq H (m.allocate t kv item) abs ∧ Fresh (m.allocate t kv item) kv item := by
  have hno := h.not_pointed ha.2.2
  refine ⟨(h.entries fun q hq => ?_).book _ _ _ _ _, ha.1, ha.2.1, ?_, hno⟩
  · exact update_of_ne (hno q hq) ..
  · exact update_self ..

theorem Mem.grown_span (hc : m.cur.lastLevel ≤ m.cur.firstLevel) :
    m.grown.cur.span = m.cur.span + 1 := by
  rw [Mem.grown_cur, Meta.span, Meta.span]
  dsimp only
  omega

theorem Seq.grown_hasRoom (h : Seq H m abs) (key : K) : m.grown.HasRoom H key := by
  have hc := h.chain
  refine ⟨⟨m.cur.firstLevel + 1, H.fIdx key (m.cur.firstLevel + 1), 0⟩, ⟨⟨.inl rfl, ?_⟩, ?_, ?_⟩,
    ?_, .inl ?_⟩
  · exact Nat.zero_lt_succ 3
  · rw [Mem.grown_cur]
    dsimp only
    omega
  · rw [Mem.grown_span (Nat.le_of_lt hc), Mem.grown_cur, Meta.span]
    dsimp only
    omega
  · -- nothing is above the old top level
    show m.slots ⟨m.cur.firstLevel + 1, _, 0⟩ = 0
    by_contra hne
    have hl := (h.live _ hne).2
    dsimp only at hl
    omega
  · rw [Mem.grown_cur]
    dsimp only
    omega

section Insert

variable [DecidableEq K]

/-- What an insert of `key` in the memory `m` leaves. -/
structure InsertPost (H : Table K) (m : Mem K T) (abs : K → Option T) (key : K) (value : T)
    (kv : Word) (r : Ret K T) (m' : Mem K T) : Prop where
  seq : Seq H m' (insertMap abs key value)
  found : r.found = (abs key).isSome
  entries : ∀ a, a ≠ kv → m'.entries a = m.entries a
  last : m'.cur.lastLevel = m.cur.lastLevel
  span : m'.cur.span ≤ maxLevel
  ops : m'.ops = m.ops

variable {key : K} {t : Nat} {value : T} {kv : Word}

/-- A round of `generic_insert` that finds the key or a usable slot is the last
one. -/
theorem Seq.insertLoop_last (h : Seq H m abs) (hp : 2 ≤ H.hashpower) (hr : 1 ≤ H.retries)
    (hspan : m.cur.span ≤ maxLevel) (hf : Fresh m kv (key, value))
    (hroom : m.Has key ∨ m.HasRoom H key) (n : Nat) (expandedFlag : Bool) :
    (insertLoop H t key kv (setPartial kv (H.par key)) (n + 1) true expandedFlag).runs
      (InsertPost H m abs key value kv) m := by
  have hc := h.chain
  have htop := h.top
  rw [insertLoop, runs_bind, runs_loadMeta, if_pos rfl]
  simp only [runs_bind]
  refine runs_mono ?_ (find_runs hp hr h.placed h.rep (by omega) (by omega) hspan t
    ⟨key, false, false⟩)
  rintro f m' ⟨rfl, hfind⟩
  simp only [pure_eq, runs_ret]
  have hfound : f.result.isFound = true → m'.Has key := by
    intro hres
    rcases hfind with ⟨_, _, hhas⟩ | hpass
    · exact hhas
    · obtain ⟨q, _, _, _, v, hq⟩ := hpass.found hres
      exact ⟨q, v, hq⟩
  split
  · next hres =>
    obtain ⟨v, hv⟩ := Option.isSome_iff_exists.mp ((h.has_iff key).mp (hfound hres))
    refine ⟨?_, by rw [hv]; rfl, ?_, rfl, hspan, rfl⟩
    · rw [insertMap, hv]
      exact h.delete_fresh hf
    · exact fun a ha => update_of_ne ha ..
  · next hres =>
    have hres' : f.result.isFound = false := Bool.eq_false_iff.mpr hres
    have hpass : Pass m' key m'.cur.lastLevel (H.Reads key m'.cur.lastLevel m'.cur.span) f := by
      rcases hfind with ⟨_, hres, _⟩ | hpass
      · exact absurd hres (by rw [hres']; decide)
      · exact hpass
    have hnone : abs key = none := by
      cases hk : abs key with
      | none => rfl
      | some v =>
        obtain ⟨q, hq⟩ := (h.rep.holds key v).mp hk
        exact absurd hq (hpass.absent hres' q v (h.reads_of_entryAt hq))
    have hno : ¬ m'.Has key := by
      rw [h.has_iff, hnone]
      exact Bool.false_ne_true
    obtain ⟨q, hq, hz, hlow⟩ := hroom.resolve_left hno
    obtain ⟨hvac, hle⟩ := hpass.best hres' q hq hz
    obtain ⟨e, he, hfe, hez, hold, hel⟩ := hpass.vacant hvac
    rw [if_pos]
    · rw [hfe]
      simp only [runs_bind]
      rw [runs_casSlot (hez.trans hold.symm)]
      simp only [if_true]
      have hseq : Seq H (Mem.disown kv { m' with
          slots := update m'.slots e (setPartial kv (H.par key)) })
          (insertMap abs key value) := by
        rw [insertMap, hnone]
        refine Seq.book (h.write (hf.placed he.1) ?_ ?_ ?_ ⟨?_, ?_⟩ ?_) _ _ _ _ _
        · rw [addr_setPartial hf.addr_eq]
          exact hf.entry
        · intro kv' hkv'
          rw [Mem.entryAt, if_pos (by rw [hez, addr_zero])] at hkv'
          cases hkv'
        · exact fun p u hp => absurd ⟨p, u, hp⟩ hno
        · exact he.2.1
        · have hlt := he.2.2
          rw [Meta.span] at hlt
          omega
        · intro hl
          rw [h.idle]
          · exact Nat.zero_le _
          · rcases hlow with hlow | hlow
            · omega
            · exact hlow
      split
      · next hflag =>
        simp only [runs_bind, runs_loadMeta]
        rw [if_neg]
        · exact ⟨hseq, by rw [hnone]; rfl, fun _ _ => rfl, rfl, hspan, rfl⟩
        · rintro ⟨hres, _⟩
          exact absurd (hflag.symm.trans hres) (by decide)
      · exact ⟨hseq, by rw [hnone]; rfl, fun _ _ => rfl, rfl, hspan, rfl⟩
    · refine ⟨hvac, ?_⟩
      rcases hlow with hlow | hlow
      · exact .inl (by omega)
      · exact .inr hlow

/-- A round that finds neither appends a level. -/
theorem Seq.insertLoop_expands (h : Seq H m abs) (hp : 2 ≤ H.hashpower) (hr : 1 ≤ H.retries)
    (hspan : m.cur.span ≤ maxLevel) {created : Word} (hno : ¬ m.Has key) (hroom : ¬ m.HasRoom H key)
    (n : Nat) (expandedFlag : Bool) (Q : Ret K T → Mem K T → Prop) :
    (insertLoop H t key kv created (n + 1) true expandedFlag).runs Q m ↔
      (insertLoop H t key kv created n true true).runs Q m.grown := by
  have hc := h.chain
  have htop := h.top
  rw [insertLoop, runs_bind, runs_loadMeta, if_pos rfl]
  simp only [runs_bind]
  refine runs_congr (find_runs hp hr h.placed h.rep (by omega) (by omega) hspan t
    ⟨key, false, false⟩) ?_
  rintro f m' ⟨rfl, hfind⟩
  simp only [pure_eq, runs_ret]
  rcases hfind with ⟨_, _, hhas⟩ | hpass
  · exact absurd hhas hno
  · have hres : f.result.isFound ≠ true := by
      intro hres
      obtain ⟨q, _, _, _, v, hq⟩ := hpass.found hres
      exact hno ⟨q, v, hq⟩
    rw [if_neg hres, if_neg]
    · rw [runs_bind]
      refine runs_congr (h.expand_runs hp hr) ?_
      rintro _ m'' rfl
      exact Iff.rfl
    · rintro ⟨hvac, hlow⟩
      obtain ⟨e, he, _, hez, _, hel⟩ := hpass.vacant hvac
      refine hroom ⟨e, he, hez, ?_⟩
      rcases hlow with hlow | hlow
      · exact .inl (by omega)
      · exact .inr hlow

/-- The chain is not longer than the array of `find`, and neither is it after
the level that an insert of the key may append. -/
def FitsInsert (H : Table K) (m : Mem K T) (key : K) : Prop :=
  m.cur.span ≤ maxLevel ∧ (¬ m.Has key → ¬ m.HasRoom H key → m.cur.span < maxLevel)

theorem Seq.insertLoop_runs (h : Seq H m abs) (hp : 2 ≤ H.hashpower) (hr : 1 ≤ H.retries)
    (hf : Fresh m kv (key, value)) (hfit : FitsInsert H m key) (n : Nat) :
    (insertLoop H t key kv (setPartial kv (H.par key)) (n + 2) true false).runs
      (InsertPost H m abs key value kv) m := by
  by_cases hroom : m.Has key ∨ m.HasRoom H key
  · exact h.insertLoop_last hp hr hfit.1 hf hroom (n + 1) false
  · obtain ⟨hno, hroom⟩ := not_or.mp hroom
    rw [h.insertLoop_expands hp hr hfit.1 hno hroom (n + 1) false]
    have hspan := Mem.grown_span (Nat.le_of_lt h.chain)
    have hlt := hfit.2 hno hroom
    have hf' : Fresh m.grown kv (key, value) := ⟨hf.ne, hf.addr_eq, hf.entry, hf.unused⟩
    refine runs_mono ?_ (h.grown.insertLoop_last hp hr (by omega) hf'
      (.inr (h.grown_hasRoom key)) n true)
    rintro r m' ⟨hseq, hfound, hentries, hlast, hspan', hops⟩
    exact ⟨hseq, hfound, hentries, hlast.trans (by rw [Mem.grown_cur]), hspan', hops⟩

/-- Where the array is too short, an insert does not return. -/
theorem Seq.insertLoop_overflows (h : Seq H m abs) (hp : 2 ≤ H.hashpower) (hr : 1 ≤ H.retries)
    {created : Word} (hfit : ¬ FitsInsert H m key) (n : Nat) (expandedFlag : Bool)
    (Q : Ret K T → Mem K T → Prop) :
    ¬ (insertLoop H t key kv created n true expandedFlag).runs Q m := by
  -- a snapshot with more levels than the array ends the round at `find`
  have hlong : ∀ {m' : Mem K T}, m'.cur.lastLevel ≤ m'.cur.firstLevel →
      maxLevel < m'.cur.span → ∀ n flag,
      ¬ (insertLoop H t key kv created n true flag).runs Q m' := by
    intro m' hc hspan n flag hrun
    cases n with
    | zero => exact hrun
    | succ n =>
      rw [insertLoop, runs_bind, runs_loadMeta, if_pos rfl] at hrun
      simp only [runs_bind] at hrun
      exact find_overflows hc hspan t _ _ hrun
  by_cases hspan : m.cur.span ≤ maxLevel
  · have hneed : ¬ m.Has key ∧ ¬ m.HasRoom H key ∧ maxLevel ≤ m.cur.span := by
      refine ⟨fun hno => hfit ⟨hspan, fun h' => absurd hno h'⟩,
        fun hroom => hfit ⟨hspan, fun _ h' => absurd hroom h'⟩, ?_⟩
      by_contra hlt
      exact hfit ⟨hspan, fun _ _ => Nat.lt_of_not_le hlt⟩
    cases n with
    | zero => exact id
    | succ n =>
      rw [h.insertLoop_expands hp hr hspan hneed.1 hneed.2.1]
      refine hlong (Nat.le_of_lt h.grown.chain) ?_ n true
      rw [Mem.grown_span (Nat.le_of_lt h.chain)]
      omega
  · exact hlong (Nat.le_of_lt h.chain) (Nat.lt_of_not_le hspan) n expandedFlag

theorem Seq.genericInsert_runs (h : Seq H m abs) (hp : 2 ≤ H.hashpower) (hr : 2 ≤ H.retries)
    (ha : Available m kv) (hfit : FitsInsert H m key) :
    (genericInsert H t key value kv).runs (InsertPost H m abs key value kv) m := by
  obtain ⟨n, hn⟩ := Nat.exists_eq_add_of_le' hr
  obtain ⟨h', hf⟩ := h.allocate t (key, value) ha
  rw [genericInsert, runs_bind, runs_newEntry ha, hn]
  have hhas := (h.has_iff key).trans (h'.has_iff key).symm
  refine runs_mono ?_ (h'.insertLoop_runs hp (by omega) hf
    ⟨hfit.1, fun hno hroom => hfit.2 (fun h' => hno (hhas.mp h')) hroom⟩ n)
  rintro r m' ⟨hseq, hfound, hentries, hlast, hspan, hops⟩
  exact ⟨hseq, hfound, fun a hne => (hentries a hne).trans (update_of_ne hne ..), hlast,
    hspan, hops⟩

theorem Seq.genericInsert_overflows (h : Seq H m abs) (hp : 2 ≤ H.hashpower) (hr : 1 ≤ H.retries)
    (ha : Available m kv) (hfit : ¬ FitsInsert H m key) (Q : Ret K T → Mem K T → Prop) :
    ¬ (genericInsert H t key value kv).runs Q m := by
  obtain ⟨h', _⟩ := h.allocate t (key, value) ha
  rw [genericInsert, runs_bind, runs_newEntry ha]
  refine h'.insertLoop_overflows hp hr ?_ _ _ _
  have hhas := (h.has_iff key).trans (h'.has_iff key).symm
  exact fun hfit' => hfit ⟨hfit'.1, fun hno hroom => hfit'.2 (fun h' => hno (hhas.mpr h')) hroom⟩

end Insert

/-! ## `generic_update` -/

theorem runs_updateRedo {f : Find} {tmp : Nat × Meta} {ptr : Nat} {Q : Bool → Mem K T → Prop}
    (hQ : ∀ b, Q b m) : (updateRedo f ptr tmp : Code K T Bool).runs Q m := by
  rw [updateRedo]
  split
  · exact hQ true
  · split
    · split
      · exact hQ _
      · exact hQ _
    · exact hQ false

section Update

variable [DecidableEq K]

/-- What `update` does to the map. -/
def updateMap (abs : K → Option T) (key : K) (value : T) : K → Option T :=
  match abs key with
  | some _ => update abs key (some value)
  | none => abs

/-- `find` with duplicates fixed, on a table without duplicates. -/
theorem Seq.find_unique (h : Seq H m abs) (hp : 2 ≤ H.hashpower) (hr : 1 ≤ H.retries)
    (hspan : m.cur.span ≤ maxLevel) (t : Nat) (key : K) :
    (find H t ⟨key, true, true⟩ m.metaPtr m.cur).runs (fun f m' => m' = m ∧
      (f.result.isFound = true → ∃ q v, f.e = some q ∧ f.oldE = m.slots q ∧
        m.entryAt q = some (key, v)) ∧
      (f.result.isFound = false → abs key = none)) m := by
  have hc := h.chain
  have htop := h.top
  refine runs_mono ?_ (find_runs hp hr h.placed h.rep (by omega) (by omega) hspan t
    ⟨key, true, true⟩)
  rintro f m' ⟨rfl, ⟨hfix, _⟩ | hpass⟩
  · cases hfix
  · refine ⟨rfl, ?_, ?_⟩
    · intro hf
      obtain ⟨q, _, he, hold, v, hq⟩ := hpass.found hf
      exact ⟨q, v, he, hold, hq⟩
    · intro hf
      cases hk : abs key with
      | none => rfl
      | some v =>
        obtain ⟨q, hq⟩ := (h.rep.holds key v).mp hk
        exact absurd hq (hpass.absent hf q v (h.reads_of_entryAt hq))

/-- The round after a redo check finds the new word and returns. -/
theorem Seq.updateLoop_again (h : Seq H m abs) (hp : 2 ≤ H.hashpower) (hr : 1 ≤ H.retries)
    (hspan : m.cur.span ≤ maxLevel) {t : Nat} {key : K} {kv created : Word} {q : Slot} {v : T}
    (hq : m.entryAt q = some (key, v)) (hw : m.slots q = created) (n : Nat) :
    (updateLoop H t key kv created (n + 1) m.metaPtr m.cur true).runs
      (fun r m' => m' = m ∧ r.found = true) m := by
  rw [updateLoop, runs_bind]
  refine runs_mono ?_ (h.find_unique hp hr hspan t key)
  rintro f m' ⟨rfl, hfound, hnone⟩
  have hres : f.result.isFound = true := by
    cases hf : f.result.isFound with
    | true => rfl
    | false =>
      have habs := (h.rep.holds key v).mpr ⟨q, hq⟩
      rw [hnone hf] at habs
      cases habs
  obtain ⟨p, u, _, hold, hp'⟩ := hfound hres
  obtain rfl := h.rep.once hp' hq
  rw [if_pos hres, if_pos ⟨rfl, hold.trans hw⟩]
  exact ⟨rfl, rfl⟩

theorem Seq.genericUpdate_runs (h : Seq H m abs) (hp : 2 ≤ H.hashpower) (hr : 2 ≤ H.retries)
    {t : Nat} {key : K} {value : T} {kv : Word} (ha : Available m kv)
    (hspan : m.cur.span ≤ maxLevel) :
    (genericUpdate H t key value kv).runs
      (fun r m' => Seq H m' (updateMap abs key value) ∧ r.found = (abs key).isSome) m := by
  obtain ⟨n, hn⟩ := Nat.exists_eq_add_of_le' hr
  obtain ⟨h', hf⟩ := h.allocate t (key, value) ha
  rw [genericUpdate, runs_bind, runs_newEntry ha, hn, runs_bind, runs_loadMeta]
  generalize hm₁ : m.allocate t kv (key, value) = m₁ at h' hf ⊢
  have hspan₁ : m₁.cur.span ≤ maxLevel := by
    rw [← hm₁]
    exact hspan
  rw [updateLoop, runs_bind]
  refine runs_mono ?_ (h'.find_unique hp (by omega) hspan₁ t key)
  rintro f m' ⟨rfl, hfound, hnone⟩
  split
  · next hres =>
    obtain ⟨q, v, he, hold, hq⟩ := hfound hres
    have habs := (h'.rep.holds key v).mpr ⟨q, hq⟩
    obtain ⟨_, hslot, hne⟩ := h'.placed.of_entryAt hq
    rw [if_neg (fun hc => absurd hc.1 Bool.false_ne_true), he]
    rw [runs_bind, runs_casSlot hold.symm, if_pos rfl, runs_bind, runs_loadMeta,
      runs_bind]
    have hw := hf.placed hslot
    have hentry : m'.entries (addr (setPartial kv (H.par key))) = some (key, value) := by
      rw [addr_setPartial hf.addr_eq]
      exact hf.entry
    have hseq : Seq H (Mem.disown kv { m' with
        slots := update m'.slots q (setPartial kv (H.par key)) })
        (updateMap abs key value) := by
      rw [updateMap, habs]
      refine Seq.book (h'.write hw hentry ?_ ?_ (h'.live q hne) (h'.ahead q hne)) _ _ _ _ _
      · intro kv' hkv'
        rw [hq] at hkv'
        rw [← Option.some.inj hkv']
      · exact fun p u hp' => h'.rep.once hp' hq
    refine runs_updateRedo fun redo => ?_
    split
    · refine runs_mono ?_ (hseq.updateLoop_again hp (by omega) hspan₁ (q := q) (v := value)
        ?_ ?_ n)
      · rintro r m'' ⟨rfl, hr⟩
        exact ⟨hseq, by rw [hr, habs]; rfl⟩
      · refine entryAt_eq_some.mpr ?_
        simp only [Mem.disown, update_self]
        exact ⟨hw.addr_ne, hentry⟩
      · exact update_self ..
    · exact ⟨hseq, by rw [habs]; rfl⟩
  · next hres =>
    have habs := hnone (Bool.eq_false_iff.mpr hres)
    refine ⟨?_, by rw [habs]; rfl⟩
    rw [updateMap, habs]
    exact h'.delete_fresh hf

end Update

/-! ## `erase` -/

section Erase

variable [DecidableEq K]

/-- The key is gone, and the chain of levels is as before. -/
structure Erased (H : Table K) (m : Mem K T) (abs : K → Option T) (key : K) (m' : Mem K T) :
    Prop where
  seq : Seq H m' (update abs key none)
  was : (abs key).isSome = true
  ptr : m'.metaPtr = m.metaPtr
  cur : m'.cur = m.cur
  levels : m'.levels = m.levels

variable {key : K} {ptr t : Nat}

theorem Seq.eraseSlot_runs (h : Seq H m abs) {i : Nat} {q : Slot} :
    (eraseSlot H t key ptr i q).runs (fun b m' =>
      b = false ∧ m' = m ∧ (∀ v, m.entryAt q ≠ some (key, v)) ∨
        b = true ∧ Erased H m abs key m') m := by
  rw [eraseSlot, runs_bind, runs_loadSlot]
  split
  · next htest =>
    have hne : m.slots q ≠ 0 := fun hz => htest.2 (by rw [hz, addr_zero])
    obtain ⟨⟨k, v⟩, he, _⟩ := (h.placed q hne).entry
    have hq : m.entryAt q = some (k, v) := entryAt_eq_some.mpr ⟨htest.2, he⟩
    rw [runs_bind, runs_loadEntry he]
    split
    · next hkey =>
      subst hkey
      rw [runs_bind, runs_casSlot rfl, if_pos rfl]
      -- no other slot points to the entry that is deleted
      have hothers : ∀ p, update m.slots q 0 p ≠ 0 → update m.entries (addr (m.slots q)) none
            (addr (update m.slots q 0 p)) =
          m.entries (addr (update m.slots q 0 p)) := by
        intro p hp
        by_cases hpq : p = q
        · rw [hpq, update_self] at hp
          exact absurd rfl hp
        · rw [update_of_ne hpq] at hp ⊢
          exact update_of_ne (fun ha => hpq (h.slot_eq_of_addr hp hne ha)) ..
      have hdone : Erased H m abs k (Mem.release (addr (m.slots q)) (Mem.own t
          (addr (m.slots q)) { m with slots := update m.slots q 0 })) :=
        ⟨Seq.book ((h.clear hq).entries hothers) _ _ _ _ _,
          by rw [(h.rep.holds k v).mpr ⟨q, hq⟩]; rfl, rfl, rfl, rfl⟩
      simp only [runs_bind, deleteEntry, runs_write, runs_loadMeta]
      split
      · exact .inr ⟨rfl, hdone⟩
      · split
        · rw [runs_bind, loadNeighbour]
          split
          · exact .inr ⟨rfl, hdone⟩
          · exact .inr ⟨rfl, hdone⟩
        · exact .inr ⟨rfl, hdone⟩
    · next hkey =>
      refine .inl ⟨rfl, rfl, fun v' hv' => hkey ?_⟩
      rw [hq] at hv'
      injection hv' with hv'
      injection hv' with hk _
  · next htest => exact .inl ⟨rfl, rfl, entryAt_ne_of_mismatch h.placed htest⟩

theorem Seq.eraseBucket_absent (h : Seq H m abs) (hk : abs key = none) {i level bucket : Nat} :
    ∀ n j s,
    (eraseBucket H t key ptr i level bucket n j s).runs (fun s' m' => s' = s ∧ m' = m) m := by
  intro n
  induction n with
  | zero => exact fun j s => ⟨rfl, rfl⟩
  | succ n ih =>
    intro j s
    rw [eraseBucket, runs_bind]
    refine runs_mono ?_ h.eraseSlot_runs
    rintro b m' (⟨rfl, rfl, _⟩ | ⟨_, hd⟩)
    · rw [Bool.or_false]
      exact ih (j + 1) s
    · have hwas := hd.was
      rw [hk] at hwas
      cases hwas

theorem Seq.eraseBucket_runs (h : Seq H m abs) {i level bucket : Nat} : ∀ n j,
    (eraseBucket H t key ptr i level bucket n j false).runs (fun s m' =>
      s = false ∧ m' = m ∧ (∀ i v, j ≤ i → i < j + n →
        m.entryAt ⟨level, bucket, i⟩ ≠ some (key, v)) ∨
        s = true ∧ Erased H m abs key m') m := by
  intro n
  induction n with
  | zero => exact fun j => .inl ⟨rfl, rfl, fun i v hi hi' => absurd hi' (by omega)⟩
  | succ n ih =>
    intro j
    rw [eraseBucket, runs_bind]
    refine runs_mono ?_ h.eraseSlot_runs
    rintro b m' (⟨rfl, rfl, hj⟩ | ⟨rfl, hd⟩)
    · refine runs_mono ?_ (ih (j + 1))
      rintro s m' (⟨hs, hm, hrest⟩ | hd)
      · refine .inl ⟨hs, hm, fun i v hi hi' => ?_⟩
        rcases Nat.eq_or_lt_of_le hi with rfl | hlt
        · exact hj v
        · exact hrest i v hlt (by omega)
      · exact .inr hd
    · refine runs_mono ?_ (hd.seq.eraseBucket_absent (update_self ..) n (j + 1) true)
      rintro s m'' ⟨rfl, rfl⟩
      exact .inr ⟨rfl, hd⟩

theorem Seq.eraseLevels_absent (h : Seq H m abs) (hk : abs key = none) {mt : Meta}
    (htop : mt.firstLevel < m.levels) :
    ∀ n li i s, li + n = mt.firstLevel + 1 → 0 < n →
    (eraseLevels H t key ptr mt n li i s).runs (fun s' m' => s' = s ∧ m' = m) m := by
  intro n
  induction n with
  | zero =>
    intro li i s _ h0
    omega
  | succ n ih =>
    intro li i s hn _
    rw [eraseLevels, runs_bind]
    refine runs_mono ?_ (h.eraseBucket_absent hk _ _ s)
    rintro s m' ⟨rfl, rfl⟩
    rw [runs_bind]
    refine runs_mono ?_ (h.eraseBucket_absent hk _ _ s)
    rintro s m' ⟨rfl, rfl⟩
    simp only [runs_bind, runs_loadUp]
    split
    · exact ⟨rfl, rfl⟩
    · next hli =>
      rw [if_pos (show li + 1 < m'.levels by omega)]
      exact ih (li + 1) (i + 1) s (by omega) (by omega)

theorem Seq.eraseLevels_runs (h : Seq H m abs) {mt : Meta} (htop : mt.firstLevel < m.levels) :
    ∀ n li i, li + n = mt.firstLevel + 1 → 0 < n →
    (eraseLevels H t key ptr mt n li i false).runs (fun s m' =>
      s = false ∧ m' = m ∧ m.Without key li mt.firstLevel ∨
        s = true ∧ Erased H m abs key m') m := by
  intro n
  induction n with
  | zero =>
    intro li i _ h0
    omega
  | succ n ih =>
    intro li i hn _
    -- what is left of the levels after the key is gone
    have hgone : ∀ {m'} {k : Option Nat → Code K T Bool}, Erased H m abs key m' →
        (∀ up, li = mt.firstLevel → k up = pure true) →
        (∀ up, li ≠ mt.firstLevel → k (some up) = eraseLevels H t key ptr mt n up (i + 1) true) →
        (loadUp li >>= k).runs (fun s m' => s = false ∧ m' = m ∧ m.Without key li mt.firstLevel ∨
          s = true ∧ Erased H m abs key m') m' := by
      intro m' k hd hfirst hup
      rw [runs_bind, runs_loadUp, hd.levels]
      by_cases hli : li = mt.firstLevel
      · rw [hfirst _ hli]
        exact .inr ⟨rfl, hd⟩
      · rw [if_pos (show li + 1 < m.levels by omega), hup _ hli]
        refine runs_mono ?_ (hd.seq.eraseLevels_absent (update_self ..)
          (by rw [hd.levels]; exact htop) n (li + 1) (i + 1) true (by omega) (by omega))
        rintro s m'' ⟨rfl, rfl⟩
        exact .inr ⟨rfl, hd⟩
    rw [eraseLevels, runs_bind]
    refine runs_mono ?_ (h.eraseBucket_runs _ _)
    rintro s m' (⟨rfl, rfl, hf⟩ | ⟨rfl, hd⟩)
    · rw [runs_bind]
      refine runs_mono ?_ (h.eraseBucket_runs _ _)
      rintro s m' (⟨rfl, rfl, hs⟩ | ⟨rfl, hd⟩)
      · have hlevel := Mem.Without.level h.placed hf hs
        simp only [runs_bind, runs_loadUp]
        split
        · next hli =>
          rw [← hli]
          exact .inl ⟨rfl, rfl, hlevel⟩
        · next hli =>
          rw [if_pos (show li + 1 < m'.levels by omega)]
          refine runs_mono ?_ (ih (li + 1) (i + 1) (by omega) (by omega))
          rintro s m'' (⟨hs, hm, hrest⟩ | hd)
          · exact .inl ⟨hs, hm, hlevel.cons hrest⟩
          · exact .inr hd
      · exact hgone hd (fun _ h => if_pos h) fun _ h => if_neg h
    · rw [runs_bind]
      refine runs_mono ?_ (hd.seq.eraseBucket_absent (update_self ..) _ _ true)
      rintro s m'' ⟨rfl, rfl⟩
      exact hgone hd (fun _ h => if_pos h) fun _ h => if_neg h

theorem Seq.erase_runs (h : Seq H m abs) (hr : 1 ≤ H.retries) :
    (erase H t key).runs (fun r m' => Seq H m' (update abs key none) ∧
      r.found = (abs key).isSome) m := by
  obtain ⟨n, hn⟩ := Nat.exists_eq_add_of_le' hr
  have hc := h.chain
  have htop := h.top
  rw [erase, runs_bind, runs_loadMeta, hn, eraseLoop, runs_bind]
  dsimp only
  refine runs_mono ?_ (h.eraseLevels_runs (by omega) m.cur.span m.cur.lastLevel 0
    (by rw [Meta.span]; omega) (by rw [Meta.span]; omega))
  rintro s m' (⟨rfl, rfl, hout⟩ | ⟨rfl, hd⟩)
  · simp only [runs_bind, runs_loadMeta, if_true]
    have habs : abs key = none := by
      cases hk : abs key with
      | none => rfl
      | some v =>
        obtain ⟨q, hq⟩ := (h.rep.holds key v).mp hk
        have hl := h.live q (h.placed.of_entryAt hq).2.2
        exact absurd hq (hout q v hl.1 hl.2)
    refine ⟨?_, by rw [habs]; rfl⟩
    rw [show update abs key none = abs from
      update_eq_self_iff.mpr habs.symm]
    exact h
  · simp only [runs_bind, runs_loadMeta, hd.ptr, if_true]
    exact ⟨hd.seq, hd.was.symm⟩

end Erase

end ShmPcc.ClevelHash
