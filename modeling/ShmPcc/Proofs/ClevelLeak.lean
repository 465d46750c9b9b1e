import ShmPcc.Proofs.ClevelDelete

/-!
# Entries that calls one after another leave allocated

An operation allocates at most one entry and puts its address into a slot or
deletes it again; `erase` deletes the entry whose slot it clears, and the
rehasher copies an address before it clears the slot it came from. So no call
leaves an entry that no slot points to, with one exception: `generic_update`
overwrites the address of the entry that it replaces, and nobody deletes that
entry.
-/

namespace ShmPcc.ClevelHash

open Function Prog

variable {K T : Type} {H : Table K} {m m' : Mem K T}

/-! ## Entries that are pointed to -/

def Mem.Pointed (m : Mem K T) (a : Word) : Prop := ∃ q, addr (m.slots q) = a

/-- Every entry is pointed to by a slot, except possibly the one that the
operation in progress has at `spare`. -/
structure NoLeak (spare : Option Word) (m : Mem K T) : Prop where
  null : m.entries 0 = none
  pointed : ∀ a, m.entries a ≠ none → some a ≠ spare → m.Pointed a

namespace NoLeak

variable {spare : Option Word}

theorem of_same (h : NoLeak spare m) (hs : m'.slots = m.slots) (he : m'.entries = m.entries) :
    NoLeak spare m' := by
  refine ⟨by rw [he]; exact h.null, fun a ha hne => ?_⟩
  rw [he] at ha
  obtain ⟨q, hq⟩ := h.pointed a ha hne
  exact ⟨q, by rw [hs]; exact hq⟩

theorem weaken (h : NoLeak none m) : NoLeak spare m :=
  ⟨h.null, fun a ha _ => h.pointed a ha nofun⟩

theorem ne_zero (h : NoLeak spare m) {a : Word} (ha : m.entries a ≠ none) : a ≠ 0 := by
  intro hz
  rw [hz] at ha
  exact ha h.null

theorem allocate (h : NoLeak none m) {t : Nat} {kv : Word} {item : K × T} (hkv : kv ≠ 0) :
    NoLeak (some kv) (m.allocate t kv item) := by
  refine ⟨(update_of_ne hkv.symm ..).trans h.null, fun a ha hne => ?_⟩
  have hak : a ≠ kv := fun hak => hne (congrArg some hak)
  have ha' : m.entries a ≠ none := by
    rwa [show (m.allocate t kv item).entries a = m.entries a from
      update_of_ne hak ..] at ha
  exact h.pointed a ha' nofun

theorem release (h : NoLeak (some kv) m) : NoLeak none (m.release kv) := by
  have hrel : ∀ a, (m.release kv).entries a ≠ none → a ≠ kv ∧ m.entries a ≠ none := by
    intro a ha
    have hak : a ≠ kv := by
      intro hak
      exact ha (by rw [hak]; exact update_self ..)
    exact ⟨hak, by rwa [show (m.release kv).entries a = m.entries a from
      update_of_ne hak ..] at ha⟩
  refine ⟨?_, fun a ha _ => ?_⟩
  · by_contra hz
    exact (hrel 0 hz).2 h.null
  · obtain ⟨hak, ha'⟩ := hrel a ha
    exact h.pointed a ha' fun he => hak (Option.some.inj he)

theorem fill (h : NoLeak (some kv) m) {q : Slot} {w : Word} (hq : addr (m.slots q) = 0)
    (hw : addr w = kv) {m' : Mem K T} (hs : m'.slots = update m.slots q w)
    (he : m'.entries = m.entries) : NoLeak none m' := by
  refine ⟨by rw [he]; exact h.null, fun a ha _ => ?_⟩
  rw [he] at ha
  by_cases hak : a = kv
  · exact ⟨q, by rw [hs, update_self, hw, hak]⟩
  · obtain ⟨p, hp⟩ := h.pointed a ha fun hsome => hak (Option.some.inj hsome)
    have hpq : p ≠ q := by
      intro hpq
      rw [hpq, hq] at hp
      exact h.ne_zero ha hp.symm
    exact ⟨p, by rw [hs, update_of_ne hpq]; exact hp⟩

theorem take (h : NoLeak none m) {q : Slot} {m' : Mem K T}
    (hs : m'.slots = update m.slots q 0) (he : m'.entries = m.entries) :
    NoLeak (some (addr (m.slots q))) m' := by
  refine ⟨by rw [he]; exact h.null, fun a ha hne => ?_⟩
  rw [he] at ha
  obtain ⟨p, hp⟩ := h.pointed a ha nofun
  have hpq : p ≠ q := by
    intro hpq
    rw [hpq] at hp
    exact hne (congrArg some hp.symm)
  exact ⟨p, by rw [hs, update_of_ne hpq]; exact hp⟩

/-- The word of `src` is copied to the empty slot `dst` before `src` is cleared. -/
theorem move (h : NoLeak none m) (src dst : Slot) (hsrc : addr (m.slots src) ≠ 0)
    (hdst : addr (m.slots dst) = 0) {m' : Mem K T}
    (hs : m'.slots = update (update m.slots dst (m.slots src)) src 0)
    (he : m'.entries = m.entries) : NoLeak none m' := by
  have hne : dst ≠ src := by
    intro heq
    rw [heq] at hdst
    exact hsrc hdst
  refine ⟨by rw [he]; exact h.null, fun a ha _ => ?_⟩
  rw [he] at ha
  obtain ⟨p, hp⟩ := h.pointed a ha nofun
  by_cases hps : p = src
  · refine ⟨dst, ?_⟩
    rw [hs, update_of_ne hne, update_self, ← hps]
    exact hp
  · have hpd : p ≠ dst := by
      intro hpd
      rw [hpd, hdst] at hp
      exact h.ne_zero ha hp.symm
    exact ⟨p, by rw [hs, update_of_ne hps, update_of_ne hpd]; exact hp⟩

end NoLeak

/-! ## Code that only loads, or changes the levels -/

theorem ends_loads {α : Type} {P : α → Prop} {p : Code K T α} (hp : p.Meets Loads P) :
    p.ends (fun a m' => P a ∧ m' = m) m :=
  hp.ends (fun _ _ _ hl h => hl.2.trans h) rfl

theorem ends_load {α : Type} {p : Code K T α} (hp : p.Within Loads) {Q : α → Mem K T → Prop}
    (h : ∀ a, Q a m) : p.ends Q m := by
  refine ends_mono ?_ (ends_loads hp.meets)
  intro a m' hm'
  rw [hm'.2]
  exact h a

theorem ends_aside {α : Type} {spare : Option Word} {p : Code K T α} (hp : p.Within Aside)
    (h : NoLeak spare m) : p.ends (fun _ m' => NoLeak spare m') m :=
  ends_mono (fun _ _ h => h.2)
    (hp.meets.ends (fun _ _ _ hl h => h.of_same hl.slots hl.entries) h)

theorem ends_casSlot {l : Site} {q : Slot} {w w' : Word} {note : Mem K T → Mem K T}
    {Q : Bool → Mem K T → Prop}
    (hdone : m.slots q = w → Q true (note { m with slots := update m.slots q w' }))
    (hlost : Q false m) : (casSlot l q w w' note).ends Q m := by
  show Q (m.slots q == w) (if m.slots q = w then
    note { m with slots := update m.slots q w' } else m)
  by_cases hq : m.slots q = w
  · rw [if_pos hq, beq_iff_eq.mpr hq]
    exact hdone hq
  · rw [if_neg hq, beq_eq_false_iff_ne.mpr hq]
    exact hlost

/-! ## `find` reports empty slots only as vacancies -/

section Find

variable {key : K}

variable [DecidableEq K]

variable {levels : List Nat}

theorem findLoop_vacancy {t : Nat} : ∀ n ptr mt last,
    (findLoop H t ⟨key, false, false⟩ n ptr mt last : Code K T Find).Meets Loads Find.Vacant := by
  intro n
  induction n with
  | zero => exact fun _ _ _ => trivial
  | succ n ih =>
    intro ptr mt last
    refine .bind (collectLevels_loads _ _).meets fun levels _ =>
      .bind (visitLevels_vacant _ _ 0 { lastBucketEntry := last } (le_sum_levels levels) nofun)
        fun v hv => ?_
    cases v with
    | done f => exact hv.vacant
    | retry f => exact hv.elim
    | next f b =>
      refine .bind (load_loads rfl).meets fun tmp _ => ?_
      split
      · exact hv.vacant
      · exact ih _ _ _

end Find

/-! ## The rehasher -/

theorem moveTo_noLeak (h : NoLeak none m) {src dst : Slot} {w : Word} (hsrc : m.slots src = w)
    (hw : addr w ≠ 0) : (moveTo w src dst).ends
      (fun done m' => NoLeak none m' ∧ (done = false → m'.slots src = w)) m := by
  rw [moveTo, ends_bind, loadSlot, ends_read]
  split
  · next hdst =>
    rw [ends_bind]
    refine ends_casSlot (fun _ => ?_) ?_
    · refine ⟨h.move src dst (by rwa [hsrc]) hdst ?_ rfl, by simp⟩
      rw [hsrc]
    · exact ⟨h, fun _ => hsrc⟩
  · exact ⟨h, fun _ => hsrc⟩

theorem moveUp_noLeak {src : Slot} {tl b1 b2 : Nat} {w : Word} (hw : addr w ≠ 0) :
    ∀ n j (m : Mem K T), NoLeak none m → m.slots src = w →
      (moveUp w src tl b1 b2 n j).ends (fun _ m' => NoLeak none m') m := by
  intro n
  induction n with
  | zero => exact fun _ _ h _ => h
  | succ n ih =>
    intro j m h hsrc
    rw [moveUp, ends_bind]
    refine ends_mono (fun done m₁ h₁ => ?_) (moveTo_noLeak h hsrc hw)
    cases done with
    | true => exact h₁.1
    | false =>
      rw [if_neg Bool.false_ne_true, ends_bind]
      refine ends_mono (fun done m₂ h₂ => ?_) (moveTo_noLeak h₁.1 (h₁.2 rfl) hw)
      cases done with
      | true => exact h₂.1
      | false => exact ih _ m₂ h₂.1 (h₂.2 rfl)

theorem rehashBucket_noLeak {bl tl b : Nat} : ∀ n j (m : Mem K T), NoLeak none m →
    (rehashBucket H bl tl b n j).ends (fun _ m' => NoLeak none m') m := by
  intro n
  induction n with
  | zero => exact fun _ _ h => h
  | succ n ih =>
    intro j m h
    rw [rehashBucket, ends_bind, ends_rmw]
    split
    · next hw =>
      exact ih _ _ (h.of_same rfl rfl)
    · next hw =>
      rw [ends_bind]
      refine ends_load loadEntry_loads fun kv => ?_
      rw [ends_bind]
      refine ends_mono (fun done m₁ h₁ => ?_)
        (moveUp_noLeak hw _ _ _ (h.of_same rfl rfl) rfl)
      cases done with
      | true => exact ih _ m₁ h₁
      | false => exact h₁

theorem rehashLoop_noLeak {b : Nat} : ∀ n (m : Mem K T), NoLeak none m →
    (rehashLoop H b n).ends (fun _ m' => NoLeak none m') m := by
  intro n
  induction n with
  | zero => exact fun _ _ => trivial
  | succ n ih =>
    intro m h
    rw [rehashLoop, ends_bind, ends_rmw, ends_bind]
    refine ends_mono (fun done m₁ h₁ => ?_) (rehashBucket_noLeak _ _ _ (h.of_same rfl rfl))
    cases done with
    | true =>
      rw [if_pos rfl, ends_bind, ends_write]
      have h₂ : NoLeak none { m₁ with expandBucket := b + 1, cursor := 0 } := h₁.of_same rfl rfl
      split
      · exact ends_aside (dropLoop_aside _ _ _) h₂
      · exact h₂
    | false =>
      rw [if_neg Bool.false_ne_true, ends_bind]
      exact ends_mono (fun _ m₂ h₂ => ih m₂ h₂) (ends_aside expand_aside h₁)

theorem resize_noLeak (h : NoLeak none m) : (resize H).ends (fun _ m' => NoLeak none m') m := by
  rw [resize, ends_bind]
  refine ends_load (load_loads rfl) fun mt => ?_
  rw [ends_bind]
  refine ends_load (countLevels_loads _ _ _) fun n => ?_
  split
  · exact h
  · rw [ends_bind]
    exact ends_load (load_loads rfl) fun b => rehashLoop_noLeak _ _ h

/-! ## The operations -/

section Calls

variable [DecidableEq K]

variable {key : K} {t : Nat}

theorem insertLoop_noLeak {kv created : Word} (hw : addr created = kv) :
    ∀ n check flag (m : Mem K T), NoLeak (some kv) m →
      (insertLoop H t key kv created n check flag).ends (fun _ m' => NoLeak none m') m := by
  intro n
  induction n with
  | zero => exact fun _ _ _ _ => trivial
  | succ n ih =>
    intro check flag m h
    have hfind : ∀ mt : Nat × Meta, ((if check = true then do
          let f ← find H t ⟨key, false, false⟩ mt.1 mt.2
          pure (f, mt.1, mt.2)
        else findEmptySlot H key mt.1 mt.2 : Code K T (Find × Nat × Meta))).Meets Loads
        fun r => r.1.Vacant := by
      intro mt
      split
      · exact .bind (findLoop_vacancy _ _ _ _) fun f hf => hf
      · exact (findEmptySlotLoop_vacancy _ _ _).mono fun _ h => h.2
    rw [insertLoop, ends_bind]
    refine ends_load (load_loads rfl) fun mt => ?_
    rw [ends_bind]
    refine ends_mono ?_ (ends_loads (hfind mt))
    rintro r m₁ ⟨hvac, rfl⟩
    dsimp only
    split
    · exact h.release
    · split
      · next hroom =>
        split
        · trivial
        · next e he =>
          rw [ends_bind]
          refine ends_casSlot (fun hold => ?_) ?_
          · -- the vacancy now points to the new entry, on every way out
            have h' : NoLeak none (Mem.disown kv { m₁ with
                slots := update m₁.slots e created }) := by
              refine h.fill ?_ hw rfl rfl
              rw [hold]
              exact hvac hroom.1
            rw [if_pos rfl]
            split
            · rw [ends_bind]
              refine ends_load (load_loads rfl) fun tmp => ?_
              split
              · exact ih _ _ _ h'.weaken
              · exact h'
            · exact h'
          · exact ih _ _ _ h
      · rw [ends_bind]
        exact ends_mono (fun _ m₂ h₂ => ih _ _ m₂ h₂) (ends_aside expand_aside h)

theorem genericInsert_noLeak (h : NoLeak none m) {value : T} {kv : Word} :
    (genericInsert H t key value kv).ends (fun _ m' => NoLeak none m') m := by
  rw [genericInsert, ends_bind]
  by_cases hnew : kv ≠ 0 ∧ addr kv = kv ∧ m.entries kv = none
  · simp only [newEntry, ends]
    rw [if_pos hnew, if_pos hnew]
    exact insertLoop_noLeak (addr_setPartial hnew.2.1 _) _ _ _ _ (h.allocate hnew.1)
  · simp only [newEntry, ends]
    rw [if_neg hnew]
    trivial

theorem eraseSlot_noLeak (h : NoLeak none m) {ptr i : Nat} {q : Slot} :
    (eraseSlot H t key ptr i q).ends (fun _ m' => NoLeak none m') m := by
  rw [eraseSlot, ends_bind, loadSlot, ends_read]
  split
  · rw [ends_bind]
    refine ends_load loadEntry_loads fun kv => ?_
    split
    · rw [ends_bind]
      refine ends_casSlot (fun _ => ?_) ?_
      · rw [if_pos rfl, ends_bind, deleteEntry, ends_write]
        have h' : NoLeak none (Mem.release (addr (m.slots q)) (Mem.own t (addr (m.slots q))
            { m with slots := update m.slots q 0 })) :=
          NoLeak.release (h.take rfl rfl)
        rw [ends_bind]
        refine ends_load (load_loads rfl) fun tmp => ?_
        split
        · exact h'
        · split
          · rw [ends_bind]
            exact ends_load loadNeighbour_loads fun _ => h'
          · exact h'
      · exact h
    · exact h
  · exact h

theorem noLeak_walks : Walks fun _ (p : Code K T _) =>
    ∀ m, NoLeak none m → p.ends (fun _ m' => NoLeak none m') m where
  loads hp _ h := ends_load hp fun _ => h
  bind hp hk m h := ends_bind.mpr (ends_mono (fun a m' h' => hk a m' h') (hp m h))

variable {abs : K → Option T}

/-- An update that does not find its key deletes the entry it allocated. -/
theorem Seq.genericUpdate_noLeak (h : Seq H m abs) (hl : NoLeak none m) (hp : 2 ≤ H.hashpower)
    (hr : 1 ≤ H.retries) {value : T} {kv : Word} (ha : Available m kv)
    (hspan : m.cur.span ≤ maxLevel) (hk : abs key = none) :
    (genericUpdate H t key value kv).runs (fun _ m' => NoLeak none m') m := by
  obtain ⟨n, hn⟩ := Nat.exists_eq_add_of_le' hr
  obtain ⟨h', _⟩ := h.allocate t (key, value) ha
  rw [genericUpdate, runs_bind, runs_newEntry ha, hn, runs_bind, runs_loadMeta,
    updateLoop, runs_bind]
  refine runs_mono ?_ (h'.find_unique hp hr hspan t key)
  rintro f m₁ ⟨rfl, hfound, _⟩
  have hres : ¬ f.result.isFound = true := by
    intro hres
    obtain ⟨q, v, _, _, hq⟩ := hfound hres
    have habs := (h'.rep.holds key v).mpr ⟨q, hq⟩
    rw [hk] at habs
    cases habs
  rw [if_neg hres, if_pos rfl]
  exact (hl.allocate ha.1).release

/-- Every update names a key that is not present. -/
def Misses : List (Nat × Op K T) → (K → Option T) → Prop
  | [], _ => True
  | (_, op) :: ops, abs =>
    (match op with
      | .update key _ _ => abs key = none
      | .insert _ _ _ | .erase _ | .search _ | .resize => True) ∧ Misses ops (mapStep abs op)

theorem Seq.code_noLeak (h : Seq H m abs) (hl : NoLeak none m) (hp : 2 ≤ H.hashpower)
    (hr : 2 ≤ H.retries) {op : Op K T} (hn : op.News m) (hf : Fits H op m)
    {ops : List (Nat × Op K T)} (hmiss : Misses ((t, op) :: ops) abs) :
    (code H t op).ends (fun _ m' => NoLeak none m') m := by
  cases op with
  | insert key value kv => exact genericInsert_noLeak hl
  | update key value kv =>
    exact ends_of_runs (h.genericUpdate_noLeak hl hp (by omega) hn hf hmiss.1)
  | erase key =>
    rw [code, erase, ends_bind]
    exact ends_load (load_loads rfl) fun mt =>
      noLeak_walks.eraseLoop (fun _ _ _ _ h => eraseSlot_noLeak h) _ _ _ _ m hl
  | search key => exact ends_load search_loads fun _ => hl
  | resize =>
    rw [code, ends_bind]
    exact resize_noLeak hl

theorem Seq.exec_noLeak (h : Seq H m abs) (hl : NoLeak none m) (hp : 2 ≤ H.hashpower)
    (hr : 2 ≤ H.retries) {op : Op K T} (hlegal : Legal t op m) (hf : Fits H op m)
    {ops : List (Nat × Op K T)} (hmiss : Misses ((t, op) :: ops) abs) :
    ∃ r m', (obj H).exec t op m = some (r, m') ∧ Seq H m' (mapStep abs op) ∧ NoLeak none m' := by
  obtain ⟨calls, henter⟩ := enter_legal H hlegal
  have h₀ := h.book m.cursor m.hold m.owner ((t, op) :: m.ops) calls
  have hl₀ : NoLeak none { m with ops := (t, op) :: m.ops, calls := calls } := hl.of_same rfl rfl
  have hruns := runs_and_ends (h₀.code_runs hp hr hlegal.2 hf)
    (h₀.code_noLeak hl₀ hp hr hlegal.2 hf hmiss)
  obtain ⟨r, m', hx, ⟨hseq, _⟩, hl'⟩ := Obj.exec_of_runs henter hruns
  exact ⟨r, _, hx, hseq.book m'.cursor m'.hold m'.owner _ m'.calls, hl'.of_same rfl rfl⟩

theorem Seq.execAll_noLeak (hp : 2 ≤ H.hashpower) (hr : 2 ≤ H.retries) :
    ∀ {ops : List (Nat × Op K T)} {m : Mem K T} {abs : K → Option T}, Seq H m abs →
      NoLeak none m → (obj H).Along (fun t op m => Legal t op m ∧ Fits H op m) ops m →
      Misses ops abs → ∃ rs m', (obj H).execAll ops m = some (rs, m') ∧
        Seq H m' (ops.foldl (fun abs c => mapStep abs c.2) abs) ∧ NoLeak none m' := by
  intro ops
  induction ops with
  | nil => exact fun {m _} h hl _ _ => ⟨[], m, rfl, h, hl⟩
  | cons c ops ih =>
    intro m abs h hl hal hmiss
    obtain ⟨r, m₁, hx, h₁, hl₁⟩ := h.exec_noLeak hl hp hr hal.1.1 hal.1.2 hmiss
    obtain ⟨rs, m', hrs, h', hl'⟩ := ih h₁ hl₁ (hal.2 (r, m₁) hx) hmiss.2
    exact ⟨r :: rs, m', Obj.execAll_cons hx hrs, h', hl'⟩

end Calls

/-! ## The entries of a table at rest -/

/-- The live entries are those that slots of the current levels point to, and
they are the items of the map, one for each key. -/
structure EntriesOf (abs : K → Option T) (m : Mem K T) : Prop where
  pointed : ∀ a, (m.entries a).isSome = true ↔ ∃ q, m.cur.lastLevel ≤ q.level ∧
    q.level ≤ m.cur.firstLevel ∧ m.slots q ≠ 0 ∧ addr (m.slots q) = a
  items : ∀ key v, abs key = some v ↔ ∃ a, m.entries a = some (key, v)
  once : ∀ a b key u v, m.entries a = some (key, u) → m.entries b = some (key, v) → a = b

theorem NoLeak.entryAt_of_live (hl : NoLeak none m) {a : Word} {kv : K × T}
    (ha : m.entries a = some kv) :
    ∃ q, m.slots q ≠ 0 ∧ addr (m.slots q) = a ∧ m.entryAt q = some kv := by
  have hne : m.entries a ≠ none := by simp [ha]
  obtain ⟨q, hq⟩ := hl.pointed a hne nofun
  have haddr : addr (m.slots q) ≠ 0 := by
    rw [hq]
    exact hl.ne_zero hne
  refine ⟨q, fun hz => ?_, hq, entryAt_eq_some.mpr ⟨haddr, by rw [hq, ha]⟩⟩
  rw [hz] at haddr
  exact haddr addr_zero

theorem Seq.entriesOf {abs : K → Option T} (h : Seq H m abs) (hl : NoLeak none m) :
    EntriesOf abs m where
  pointed := by
    intro a
    constructor
    · intro ha
      obtain ⟨kv, ha⟩ := Option.isSome_iff_exists.mp ha
      obtain ⟨q, hq, hqa, _⟩ := hl.entryAt_of_live ha
      exact ⟨q, (h.live q hq).1, (h.live q hq).2, hq, hqa⟩
    · rintro ⟨q, _, _, hq, rfl⟩
      obtain ⟨_, kv, hkv, _⟩ := h.placed q hq
      rw [hkv]
      rfl
  items := by
    intro key v
    rw [h.rep.holds]
    constructor
    · rintro ⟨q, hq⟩
      exact ⟨_, (entryAt_eq_some.mp hq).2⟩
    · rintro ⟨a, ha⟩
      obtain ⟨q, _, _, hq⟩ := hl.entryAt_of_live ha
      exact ⟨q, hq⟩
  once := by
    intro a b key u v ha hb
    obtain ⟨p, _, hpa, hp⟩ := hl.entryAt_of_live ha
    obtain ⟨q, _, hqb, hq⟩ := hl.entryAt_of_live hb
    rw [← hpa, ← hqb, h.rep.once hp hq]

variable [DecidableEq K]

/-- Calls one after another, none of which updates a key that is present,
leave an entry for every item of the map and no other. -/
theorem sequential_entries (hp : 2 ≤ H.hashpower) (hr : 2 ≤ H.retries) (hinit : Init m)
    (ops : List (Nat × Op K T))
    (hfits : (obj H).Along (fun t op m => Legal t op m ∧ Fits H op m) ops m)
    (hmiss : Misses ops fun _ => none) :
    ∃ rs m', (obj H).execAll ops m = some (rs, m') ∧
      EntriesOf (ops.foldl (fun abs c => mapStep abs c.2) fun _ => none) m' := by
  obtain ⟨before, rfl⟩ := hinit
  have hl : NoLeak none (start before : Mem K T) := ⟨rfl, fun _ ha => absurd rfl ha⟩
  obtain ⟨rs, m', hx, h', hl'⟩ := (seq_start before H).execAll_noLeak hp hr hl hfits hmiss
  exact ⟨rs, m', hx, h'.entriesOf hl'⟩

/-- An update of an absent key, and inserts, an erase and a round of the
rehasher that give addresses back. -/
def missingCalls : List (Nat × Op Word Nat) :=
  [(1, .update 7 69 1), (1, .insert 7 70 1), (2, .insert 7 71 2), (1, .insert 8 80 2), (0, .resize),
    (2, .erase 7), (3, .update 7 72 3), (1, .search 8)]

theorem sequential_entries_missingCalls :
    ∃ rs m', (obj ⟨hash64shift, 2, 2⟩).execAll missingCalls (start fun _ => 0) = some (rs, m') ∧
      EntriesOf (missingCalls.foldl (fun abs c => mapStep abs c.2) fun _ => none) m' :=
  sequential_entries (by decide) (by decide) ⟨_, rfl⟩ missingCalls
    (Obj.Along.mono
      (P := fun t op (m : Mem Word Nat) => Legal t op m ∧ m.cur.span < maxLevel)
      (fun _ op _ h => ⟨h.1, fits_of_short h.2 op⟩) (by decide +kernel))
    (by simp [Misses, missingCalls, mapStep, updateMap, insertMap])

/-- An update of a present key: the entry with the old value stays allocated. -/
theorem update_leaks_old_entry :
    ∃ rs m', (obj ⟨hash64shift, 2, 2⟩).execAll [(1, .insert 7 70 1), (1, .update 7 71 2)]
        (start fun _ => 0 : Mem Word Nat) = some (rs, m') ∧
      m'.entries 1 = some (7, 70) ∧ m'.entries 2 = some (7, 71) ∧
      ∀ abs, ¬ EntriesOf abs m' := by
  have hrun : ((obj ⟨hash64shift, 2, 2⟩).execAll [(1, .insert 7 70 1), (1, .update 7 71 2)]
      (start fun _ => 0 : Mem Word Nat)).any (fun x =>
        decide (x.2.entries 1 = some (7, 70) ∧ x.2.entries 2 = some (7, 71))) = true := by
    decide +kernel
  obtain ⟨⟨rs, m'⟩, hx, hm'⟩ := (Option.any_eq_true _ _).mp hrun
  obtain ⟨h1, h2⟩ := of_decide_eq_true hm'
  exact ⟨rs, m', hx, h1, h2, fun abs h => absurd (h.once 1 2 7 70 71 h1 h2) (by decide)⟩

end ShmPcc.ClevelHash
