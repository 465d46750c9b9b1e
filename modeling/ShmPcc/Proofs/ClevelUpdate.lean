import ShmPcc.Proofs.ClevelErase

/-!
# `generic_update` among other threads

The passes of `find` go upwards, like the rehasher's copies. When a pass ends
with the published snapshot and has seen the key in one slot only, that slot is
where the item was: every other slot that holds the key by then got it from
there, by the hand of the rehasher. So if the compare-exchange on the slot
succeeds and the rehasher is not just moving its word, the new word is the only
one of the key in the table.
-/

namespace ShmPcc.ClevelHash

open Function Prog

variable {K T : Type}

section Trace

variable {H : Table K} {t : Nat} {m m' : Mem K T} {k : K}

/-- The slot is above level `li`, or in level `li` where `P` holds. -/
def Ahead (li : Nat) (P : Slot → Prop) (r : Slot) : Prop := li < r.level ∨ r.level = li ∧ P r

theorem Ahead.above {li : Nat} {P : Slot → Prop} (p r : Slot) (h : Ahead li P p)
    (hlt : p.level < r.level) : Ahead li P r := by
  left
  rcases h with h | ⟨h, _⟩ <;> omega

/-- The key is only in slots that the pass has not reached. -/
def Unseen (k : K) (li : Nat) (P : Slot → Prop) (m : Mem K T) : Prop :=
  ∀ r w, m.cur.lastLevel ≤ r.level → m.At k r w → Ahead li P r

theorem Unseen.move {li : Nat} {P : Slot → Prop} (h : Unseen k li P m) (hi : Inv H m)
    (hf : m.Foreign k t) (hm : Move H t m m') : Unseen k li P m' := by
  intro r w hr ha
  rcases hm.at_origin hi hf ha with ha | ⟨ha, _, _, hlt⟩
  · exact h r w (Nat.le_trans hm.later.last hr) ha
  · exact (h m.src w (Nat.le_refl _) ha).above _ _ hlt

/-- The key was seen in slot `q`, as the word `w`: it is there, in slots of the
region `A`, which were not visited, and where the rehasher copies it to from
`q`; or it is in `q` no more. -/
def Traced (k : K) (A : Slot → Prop) (q : Slot) (w : Word) (m : Mem K T) : Prop :=
  m.At k q w ∧ (∀ r w', m.cur.lastLevel ≤ r.level → m.At k r w' →
      A r ∨ r = q ∨ m.hold = .copied w r ∧ m.src = q) ∨
    ¬ m.At k q w ∧ q.level ≤ m.cur.lastLevel

theorem Traced.move {A : Slot → Prop} {q : Slot} {w : Word} (h : Traced k A q w m)
    (hA : ∀ p r, A p → p.level < r.level → A r) (hi : Inv H m) (hf : m.Foreign k t)
    (hm : Move H t m m') : Traced k A q w m' := by
  rcases h with ⟨hq, hall⟩ | ⟨hq, hl⟩
  · by_cases hq' : m'.At k q w
    · refine .inl ⟨hq', fun r w' hr ha => ?_⟩
      rcases hm.at_origin hi hf ha with ha | ⟨ha, hh', hsrc', hlt⟩
      · rcases hall r w' (Nat.le_trans hm.later.last hr) ha with h | h | ⟨hh, hsrc⟩
        · exact .inl h
        · exact .inr (.inl h)
        · rcases hm.copied hh with ⟨hh', hsrc'⟩ | ⟨hz, _⟩
          · exact .inr (.inr ⟨hh', hsrc'.trans hsrc⟩)
          · rw [hsrc] at hz
            exact absurd hz hq'.ne_zero
      · -- the rehasher copies it from its slot, which is `q` or not reached yet
        rcases hall m.src w' (Nat.le_refl _) ha with h | h | ⟨_, h⟩
        · exact .inl (hA _ _ h hlt)
        · rw [h] at ha
          rw [← ha.1, hq.1] at hh'
          exact .inr (.inr ⟨hh', hsrc'.trans h⟩)
        · rw [h] at ha
          rw [← ha.1, hq.1] at hh'
          exact .inr (.inr ⟨hh', hsrc'.trans h⟩)
    · refine .inr ⟨hq', ?_⟩
      obtain ⟨_, _, _, rfl⟩ := (hm.at_fate hi hf hq).resolve_left hq'
      exact hm.later.last
  · refine .inr ⟨fun hq' => ?_, Nat.le_trans hl hm.later.last⟩
    rcases hm.at_origin hi hf hq' with h | ⟨_, _, _, hlt⟩
    · exact hq h
    · omega

/-- Every slot with the key from level `lo` up holds the word `w`. -/
def Mem.Same (m : Mem K T) (k : K) (w : Word) (lo : Nat) : Prop :=
  ∀ q w', lo ≤ q.level → m.At k q w' → w' = w

theorem Mem.Same.move {w : Word} {lo : Nat} (h : m.Same k w lo) (hlo : lo ≤ m.cur.lastLevel)
    (hi : Inv H m) (hf : m.Foreign k t) (hm : Move H t m m') : m'.Same k w lo := by
  intro q w' hq ha
  rcases hm.at_origin hi hf ha with ha | ⟨ha, _⟩
  · exact h q w' hq ha
  · exact h m.src w' hlo ha

end Trace

/-! ## The state of an update -/

section Update

variable {H : Table K} {ok : Site → Mem K T → Prop} {t : Nat} {key : K} {value : T} {kv : Word}
  {Pre : Prop} {w₀ : Word} {m m' s : Mem K T}

/-- The word that the key has before and after the compare-exchange. -/
def wordOf (H : Table K) (key : K) (kv w₀ : Word) (succ : Bool) : Word :=
  if succ = true then setPartial kv (H.par key) else w₀

/-- An update is running on a snapshot that starts at level `lo`. Once it has
written its word, no other word of the key is in the levels from there on. If
the key had one word when the update started, and was in a safe slot, then it
has one word all the time, and is in a safe slot. -/
structure Updating (H : Table K) (t : Nat) (key : K) (value : T) (kv : Word) (Pre : Prop)
    (w₀ : Word) (succ : Bool) (lo : Nat) (m : Mem K T) : Prop where
  mine : Mine t (.update key value kv) kv (key, value) succ m
  live : lo ≤ m.cur.lastLevel
  same : Pre ∨ succ = true → m.Same key (wordOf H key kv w₀ succ) lo
  safe : Pre → ∃ p, m.Safe p ∧ m.At key p (wordOf H key kv w₀ succ)

variable {succ : Bool} {lo : Nat}

theorem Updating.foreign (h : Updating H t key value kv Pre w₀ succ lo m) (hi : Inv H m) {u : Nat}
    (hu : u ≠ t) :
    m.Foreign key u := hi.foreign h.mine.running rfl rfl hu

theorem Updating.move (h : Updating H t key value kv Pre w₀ succ lo m) (hp : 2 ≤ H.hashpower)
    (hi : Inv H m) {u : Nat} (hu : u ≠ t) (hm : Move H u m m') :
    Updating H t key value kv Pre w₀ succ lo m' where
  mine := h.mine.move rfl hi hu hm
  live := Nat.le_trans h.live hm.later.last
  same := fun hg => (h.same hg).move h.live hi (h.foreign hi hu) hm
  safe := fun hpre => by
    obtain ⟨p, hs, ha⟩ := h.safe hpre
    obtain ⟨q, hs', ha', _⟩ := hm.at_safe hi hp (h.foreign hi hu) hs ha
    exact ⟨q, hs', ha'⟩

/-- What a pass of `find` over the levels from `base` on has noted in `f` about
the slot where it saw the key. -/
structure Noted (H : Table K) (key : K) (kv : Word) (Pre : Prop) (w₀ : Word) (succ : Bool)
    (base : Nat) (f : Find) (q : Slot) : Prop where
  e : f.e = some q
  prevE : f.prevE = f.oldE
  prevI : f.prevI = f.levelNum
  level : base + f.levelNum = q.level
  idx : f.idx = q.bucket
  slotIdx : f.slotIdx = q.slot
  addr_ne : addr f.oldE ≠ 0
  word : Pre ∨ succ = true → f.oldE = wordOf H key kv w₀ succ

/-- A pass of `find` that has reached level `li`. -/
structure Passing (H : Table K) (key : K) (kv : Word) (Pre : Prop) (w₀ : Word) (succ : Bool)
    (base li : Nat) (P : Slot → Prop) (f : Find) (m : Mem K T) : Prop where
  missing : f.result.isFound = false → Unseen key li P m
  found : f.result.isFound = true → ∃ q, Noted H key kv Pre w₀ succ base f q ∧
    Listed key (addr f.oldE) m ∧ Traced key (Ahead li P) q f.oldE m

variable {f : Find} {base li : Nat} {P : Slot → Prop}

theorem Passing.move (h : Passing H key kv Pre w₀ succ base li P f m) (hi : Inv H m) {u : Nat}
    (hf : m.Foreign key u) (hm : Move H u m m') : Passing H key kv Pre w₀ succ base li P f m' where
  missing := fun hn => (h.missing hn).move hi hf hm
  found := fun hy => by
    obtain ⟨q, hq, hl, ht⟩ := h.found hy
    exact ⟨q, hq, hl.move hf hm, ht.move Ahead.above hi hf hm⟩

variable {P' : Slot → Prop}

theorem Passing.weaken {li' : Nat} (h : Passing H key kv Pre w₀ succ base li P f m)
    (hstep : ∀ r w, m.At key r w → Ahead li P r → Ahead li' P' r) :
    Passing H key kv Pre w₀ succ base li' P' f m := by
  refine ⟨fun hn r w hr ha => hstep r w ha (h.missing hn r w hr ha), fun hy => ?_⟩
  obtain ⟨q, hq, hl, ht⟩ := h.found hy
  refine ⟨q, hq, hl, ht.imp_left fun ⟨haq, hall⟩ => ⟨haq, fun r w hr ha => ?_⟩⟩
  exact (hall r w hr ha).imp_left (hstep r w ha)

variable {p : Slot}

theorem Passing.skip (h : Passing H key kv Pre w₀ succ base li P f m)
    (hstep : ∀ r, Ahead li P r → r = p ∨ Ahead li P' r) (hp : ∀ w, ¬ m.At key p w) :
    Passing H key kv Pre w₀ succ base li P' f m := by
  refine h.weaken fun r w ha hr => (hstep r hr).resolve_left ?_
  rintro rfl
  exact hp w ha

theorem Passing.congr {f' : Find} (h : Passing H key kv Pre w₀ succ base li P f m)
    (hn : f.result.isFound = false) (hn' : f'.result.isFound = false) :
    Passing H key kv Pre w₀ succ base li P f' m :=
  ⟨fun _ => h.missing hn, fun hy => by rw [hn'] at hy; cases hy⟩

theorem Passing.note {w : Word} (hn : Noted H key kv Pre w₀ succ base f p) (hf : f.oldE = w)
    (hfound : f.result.isFound = true) (hi : Inv H m) (hp : m.At key p w) (hun : Unseen key li P m)
    (hstep : ∀ r, Ahead li P r → r = p ∨ Ahead li P' r) :
    Passing H key kv Pre w₀ succ base li P' f m := by
  refine ⟨fun hy => (by rw [hfound] at hy; cases hy), fun _ => ⟨p, hn, ?_, ?_⟩⟩
  · obtain ⟨v, he⟩ := hp.entry
    have ho := hi.owner_none hp.ne_zero
    rw [hp.1] at ho
    rw [hf]
    exact ⟨v, he, ho⟩
  · rw [hf]
    refine .inl ⟨hp, fun r w' hr ha => ?_⟩
    rcases hstep r (hun r w' hr ha) with h | h
    · exact .inr (.inl h)
    · exact .inl h

/-! ## Duplicates -/

/-- Two slots with the key were seen: `p2` with the word `e2` and then `p1` with
the word `e1`. -/
structure Twice (H : Table K) (t : Nat) (key : K) (value : T) (kv : Word) (Pre : Prop)
    (w₀ : Word) (succ : Bool) (lo : Nat) (p1 : Slot) (e1 e2 : Word) (m : Mem K T) : Prop where
  updating : Updating H t key value kv Pre w₀ succ lo m
  listed : Listed key (addr e2) m
  above : Pre → m.cur.lastLevel < p1.level → m.At key p1 e1

variable {p1 : Slot} {e1 e2 : Word}

theorem Twice.move (h : Twice H t key value kv Pre w₀ succ lo p1 e1 e2 m) (hp : 2 ≤ H.hashpower)
    (hi : Inv H m) {u : Nat} (hu : u ≠ t) (hm : Move H u m m') :
    Twice H t key value kv Pre w₀ succ lo p1 e1 e2 m' := by
  have hf := h.updating.foreign hi hu
  refine ⟨h.updating.move hp hi hu hm, h.listed.move hf hm, fun hpre hl => ?_⟩
  exact hm.at_above hi hf (h.above hpre (Nat.lt_of_le_of_lt hm.later.last hl)) hl

theorem twice_stable (hp : 2 ≤ H.hashpower) :
    Stable H t (Twice H t key value kv Pre w₀ succ lo p1 e1 e2) :=
  stable_of fun hu hi hm h => h.move hp hi hu hm

theorem updating_stable (hp : 2 ≤ H.hashpower) :
    Stable H t (Updating H t key value kv Pre w₀ succ lo) :=
  stable_of fun hu hi hm h => h.move hp hi hu hm

theorem Twice.dup {p2 : Slot} (h : Twice H t key value kv Pre w₀ succ lo p1 e1 e2 m)
    (hlt : p2.level < p1.level) (he : Pre ∨ succ = true → e1 = wordOf H key kv w₀ succ) :
    Updating H t key value kv Pre w₀ succ lo
      { m with slots := update m.slots p2 0 } := by
  have hu := h.updating
  have hclear : ∀ p w, p ≠ p2 → m.At key p w →
      ({ m with slots := update m.slots p2 0 } : Mem K T).At key p w := by
    rintro p w hne ⟨hs, v, hv⟩
    refine ⟨(update_of_ne hne ..).trans hs, v, ?_⟩
    rw [entryAt_update_zero, update_of_ne hne]
    exact hv
  refine ⟨⟨hu.mine.running, hu.mine.entry, hu.mine.owner⟩, hu.live, fun hg q w hq ha => ?_,
    fun hpre => ?_⟩
  · exact hu.same hg q w hq (at_clear m.owner ha).2
  · obtain ⟨p, hs, ha⟩ := hu.safe hpre
    by_cases hp : p = p2
    · -- the word is in the higher slot as well, above the rehasher
      have hl : m.cur.lastLevel < p1.level := Nat.lt_of_le_of_lt (hp ▸ hs.1) hlt
      have ha1 := h.above hpre hl
      rw [he (.inl hpre)] at ha1
      refine ⟨p1, ⟨Nat.le_of_lt hl, fun h => absurd h (Nat.ne_of_gt hl)⟩, hclear p1 _ ?_ ha1⟩
      rintro rfl
      exact Nat.lt_irrefl _ hlt
    · exact ⟨p, hs, hclear p _ hp ha⟩

theorem delDup_wp [DecidableEq K] (hp : 2 ≤ H.hashpower) (hok : ∀ l m, ok l m → Calm H l m)
    {p2 : Slot} (hne : addr e2 ≠ 0) (hlt : e1 = e2 → p2.level < p1.level)
    (he : Pre ∨ succ = true → e1 = wordOf H key kv w₀ succ ∧ e2 = wordOf H key kv w₀ succ)
    (hs : Twice H t key value kv Pre w₀ succ lo p1 e1 e2 s) :
    wp (ctx H ok t) (fun _ m => Updating H t key value kv Pre w₀ succ lo m)
      (delDup t p1 p2 e1 e2) s := by
  have hst : Stable H t (Twice H t key value kv Pre w₀ succ lo p1 e1 e2) := twice_stable hp
  have hret : ∀ m, Twice H t key value kv Pre w₀ succ lo p1 e1 e2 m → wp (ctx H ok t)
      (fun _ m => Updating H t key value kv Pre w₀ succ lo m) (pure ()) m := fun m hm =>
    wp_ret_of hst hm fun _ _ h => h.updating
  refine wp_read_of hst hs fun m _ hm => ?_
  split
  · exact hret m hm
  · refine wp_read_of hst hm fun m _ hm => ?_
    split
    · exact hret m hm
    · split
      · split
        · next heq =>
          refine wp_casSlot hst hm ?_ fun m _ hm _ => hret m hm
          intro m hi hm hcalm hw
          obtain ⟨v, hv, _⟩ := hm.listed
          obtain ⟨v', hv'⟩ := (Mem.at_of_entry hw hne hv).2
          refine ⟨.dup (.update key value kv) key v' p2 hm.updating.mine.running rfl rfl hv'
            (hok _ _ hcalm hw), ?_⟩
          exact wp_ret_of (updating_stable hp)
            (hm.dup (hlt heq) fun hg => (he hg).1) fun _ _ h => h
        · next hneq =>
          -- two words of the key: this is neither after its own write nor with one word
          have hg : ¬ (Pre ∨ succ = true) := fun hg => hneq ((he hg).1.trans (he hg).2.symm)
          obtain ⟨hpre, hsucc⟩ := not_or.mp hg
          have hsucc : succ = false := Bool.eq_false_iff.mpr hsucc
          subst hsucc
          refine wp_loadEntry hst hm fun m kv1 _ hm _ => ?_
          refine wp_loadEntry hst hm fun m kv2 _ hm _ => ?_
          split
          · refine wp_casSlot hst hm ?_ fun m _ hm _ => hret m hm
            intro m hi hm hcalm hw
            obtain ⟨v, hv, ho⟩ := hm.listed
            obtain ⟨v', hv'⟩ := (Mem.at_of_entry hw hne hv).2
            obtain ⟨hheld, hsole⟩ := hok _ _ hcalm hw
            have hmine := hm.updating.mine
            have hremove := Move.remove (H := H) (t := t) (.update key value kv) key v' p2
              hmine.running rfl rfl hv' (hi.sole hv' hsole) hheld
            rw [hw] at hremove
            have hkv : kv ≠ addr e2 := by
              rintro rfl
              rw [hmine.owner] at ho
              cases ho
            refine ⟨hremove, ?_⟩
            have hst' : Stable H t fun m => Mine t (.update key value kv) kv (key, value) false m ∧
                lo ≤ m.cur.lastLevel ∧ m.entries (addr e2) = some (key, v) ∧
                m.owner (addr e2) = some t :=
              stable_of fun hu hi hm h => ⟨h.1.move rfl hi hu hm,
                Nat.le_trans h.2.1 hm.later.last, hm.entry_private hi hu h.2.2.1 h.2.2.2⟩
            refine wp_deleteEntry
              (s := Mem.own t (addr e2) { m with slots := update m.slots p2 0 }) hst'
              ⟨⟨hmine.running, hmine.entry, ?_⟩, hm.updating.live, hv, update_self ..⟩
              (fun _ h => h.2.2.2) fun m hi hm => ?_
            · exact (update_of_ne hkv ..).trans hmine.owner
            · refine wp_ret_of (updating_stable hp) ?_ fun _ _ h => h
              refine ⟨⟨hm.1.running, ?_, ?_⟩, hm.2.1, fun hg' => absurd hg' hg,
                fun hpre' => absurd hpre' hpre⟩
              · exact (update_of_ne hkv ..).trans hm.1.entry
              · exact (update_of_ne hkv ..).trans hm.1.owner
          · exact hret m hm
      · exact hret m hm

/-! ## The passes of `find` -/

/-- What `find` notes when it sees the key for the first time. -/
def Find.seen (f : Find) (track : Bool) (side : Side) (i : Nat) (p : Slot) (w : Word) : Find :=
  { f with
    result := .found side, oldE := w, e := some p, lastBucketEntry := f.noteLast track p,
    levelNum := i, idx := p.bucket, slotIdx := p.slot, prevE := w, prevI := i }

theorem Find.seen_found (f : Find) (track : Bool) (side : Side) (i : Nat) (p : Slot) (w : Word) :
    (f.seen track side i p w).result.isFound = true := by
  cases side <;> rfl

/-- A slot was loaded that looks like one of the key. If it is one, it is noted,
or it is the second one. -/
def Reading (H : Table K) (t : Nat) (key : K) (value : T) (kv : Word) (Pre : Prop) (w₀ : Word)
    (succ : Bool) (lo base li : Nat) (P P' : Slot → Prop) (f f₁ : Find) (p : Slot) (w : Word)
    (m : Mem K T) : Prop :=
  Updating H t key value kv Pre w₀ succ lo m ∧
    ((Listed key (addr w) m ∧ (Pre ∨ succ = true → w = wordOf H key kv w₀ succ) ∧
        (f.result.isFound = false → Passing H key kv Pre w₀ succ base li P' f₁ m) ∧
        (f.result.isFound = true → Passing H key kv Pre w₀ succ base li P f m ∧
          (Pre → m.cur.lastLevel < p.level → m.At key p w))) ∨
      (∀ v, m.entries (addr w) ≠ some (key, v)) ∧ Passing H key kv Pre w₀ succ base li P' f m)

theorem reading_stable (hp : 2 ≤ H.hashpower) {f₁ : Find} {w : Word} :
    Stable H t (Reading H t key value kv Pre w₀ succ lo base li P P' f f₁ p w) := by
  refine stable_of fun hu hi hm h => ?_
  have hf := h.1.foreign hi hu
  refine ⟨h.1.move hp hi hu hm, h.2.imp ?_ ?_⟩
  · rintro ⟨hl, hw, hnew, hold⟩
    refine ⟨hl.move hf hm, hw, fun h => (hnew h).move hi hf hm, fun h => ?_⟩
    refine ⟨(hold h).1.move hi hf hm, fun hpre hlt => ?_⟩
    exact hm.at_above hi hf ((hold h).2 hpre (Nat.lt_of_le_of_lt hm.later.last hlt)) hlt
  · exact fun ⟨hne, hpass⟩ => ⟨fun v he => hne v (hm.entry_origin hf he), hpass.move hi hf hm⟩

/-- After a slot, a bucket or a level. -/
def Visited (H : Table K) (t : Nat) (key : K) (value : T) (kv : Word) (Pre : Prop) (w₀ : Word)
    (succ : Bool) (lo base li : Nat) (P : Slot → Prop) (v : Visit) (m : Mem K T) : Prop :=
  Updating H t key value kv Pre w₀ succ lo m ∧
    match v with
    | .next f _ => Passing H key kv Pre w₀ succ base li P f m
    | .done _ => False
    | .retry _ => True

theorem visited_stable (hp : 2 ≤ H.hashpower) {v : Visit} :
    Stable H t (Visited H t key value kv Pre w₀ succ lo base li P v) := by
  refine stable_of fun hu hi hm h => ⟨h.1.move hp hi hu hm, ?_⟩
  cases v with
  | next f e => exact Passing.move h.2 hi (h.1.foreign hi hu) hm
  | done f => exact h.2
  | retry f => trivial

variable [DecidableEq K]

theorem visitSlot_wp (hp : 2 ≤ H.hashpower) (hok : ∀ l m, ok l m → Calm H l m) {n i : Nat}
    {side : Side} {foundEmpty : Bool} (hlo : lo ≤ base) (hl : p.level = base + i)
    (hstep : ∀ r, Ahead (base + i) P r → r = p ∨ Ahead (base + i) P' r)
    (hs : Updating H t key value kv Pre w₀ succ lo s ∧ Passing H key kv Pre w₀ succ base (base + i) P f s) :
    wp (ctx H ok t) (Visited H t key value kv Pre w₀ succ lo base (base + i) P')
      (visitSlot H t ⟨key, true, true⟩ (List.range' base n) side i p f foundEmpty) s := by
  have hret : ∀ v m, Visited H t key value kv Pre w₀ succ lo base (base + i) P' v m →
      wp (ctx H ok t) (Visited H t key value kv Pre w₀ succ lo base (base + i) P') (pure v) m :=
    fun v m hm => wp_ret_of (visited_stable hp) hm fun _ _ h => h
  have hst : Stable H t fun m => Updating H t key value kv Pre w₀ succ lo m ∧
      Passing H key kv Pre w₀ succ base (base + i) P f m :=
    stable_of fun hu hi hm h => ⟨h.1.move hp hi hu hm, h.2.move hi (h.1.foreign hi hu) hm⟩
  refine wp_read_of hst hs fun m hi hm => ?_
  split
  · next hz =>
    have hnot : ∀ w, ¬ m.At key p w := fun w ha => ha.ne_zero (hi.placed.addr_eq_zero.mp hz)
    have hskip := hm.2.skip hstep hnot
    split
    · next hcond =>
      split
      · exact hret _ m ⟨hm.1, hskip⟩
      · exact hret _ m ⟨hm.1, hskip.congr hcond.1 (by cases side <;> rfl)⟩
    · exact hret _ m ⟨hm.1, hskip⟩
  · next hne =>
    split
    · next hpar =>
      have hnot : ∀ w, ¬ m.At key p w := by
        rintro w ⟨_, v, hv⟩
        exact entryAt_ne_of_mismatch hi.placed (fun h => hpar h.1) v hv
      exact hret _ m ⟨hm.1, hm.2.skip hstep hnot⟩
    · have hz : m.slots p ≠ 0 := fun hz => hne (by rw [hz, addr_zero])
      have hreading : Reading H t key value kv Pre w₀ succ lo base (base + i) P P' f
          (f.seen true side i p (m.slots p)) p (m.slots p) m := by
        refine ⟨hm.1, (hi.judged key hz).imp ?_ ?_⟩
        · intro hlisted
          obtain ⟨v, he, _⟩ := id hlisted
          have ha : m.At key p (m.slots p) := Mem.at_of_entry rfl hne he
          have hword : Pre ∨ succ = true → m.slots p = wordOf H key kv w₀ succ := fun hg =>
            hm.1.same hg p _ (by omega) ha
          refine ⟨hlisted, hword, fun hn => ?_, fun hy => ⟨hm.2, fun _ _ => ha⟩⟩
          exact Passing.note ⟨rfl, rfl, rfl, hl.symm, rfl, rfl, hne, hword⟩ rfl
            (Find.seen_found ..) hi ha (hm.2.missing hn) hstep
        · intro hno
          refine ⟨hno, hm.2.skip hstep ?_⟩
          rintro w ⟨_, v, hv⟩
          exact hno v (entryAt_eq_some.mp hv).2
      refine wp_loadEntry (reading_stable hp) hreading fun m₁ kv₁ _ hm₁ he => ?_
      split
      · next hk =>
        refine hret _ m₁ ⟨hm₁.1, ?_⟩
        rcases hm₁.2 with ⟨⟨v, hv, _⟩, _⟩ | h
        · rw [he] at hv
          injection hv with hv
          exact absurd (congrArg Prod.fst hv) hk
        · exact h.2
      · next hk =>
        have hk : kv₁.1 = key := Classical.not_not.mp hk
        obtain ⟨_, hword, hnew, hold⟩ := hm₁.2.resolve_right fun h =>
          h.1 kv₁.2 (by rw [he, ← hk])
        rw [if_neg (show ¬ true = false from nofun)]
        split
        · next hy =>
          obtain ⟨hpass, habove⟩ := hold hy
          obtain ⟨q, hnoted, hlisted, _⟩ := hpass.found hy
          split
          · trivial
          · next prevLevel hprev =>
            split
            · trivial
            · next hassert =>
              have hq : (⟨prevLevel, f.idx, f.slotIdx⟩ : Slot) = q := by
                obtain ⟨hlt, hget⟩ := List.getElem?_eq_some_iff.mp hprev
                rw [List.getElem_range', Nat.one_mul, hnoted.level] at hget
                rw [← hget, hnoted.idx, hnoted.slotIdx]
              rw [hq]
              refine wp_bind (wp_mono ?_ (delDup_wp hp hok ?_ ?_ ?_
                ⟨hm₁.1, ?_, habove⟩))
              · exact fun _ m₂ _ hm₂ => hret (.retry f) m₂ ⟨hm₂, trivial⟩
              · rw [hnoted.prevE]
                exact hnoted.addr_ne
              · intro heq
                have hnot : ¬ i ≤ f.prevI := fun h => hassert ⟨heq, h⟩
                have := hnoted.prevI
                have := hnoted.level
                omega
              · intro hg
                exact ⟨hword hg, hnoted.prevE.trans (hnoted.word hg)⟩
              · rw [hnoted.prevE]
                exact hlisted
        · next hn =>
          exact hret _ m₁ ⟨hm₁.1, hnew (Bool.eq_false_iff.mpr hn)⟩

/-- The slots of bucket `b` from slot `j` on, and those of `Q`. -/
def FromSlot (Q : Slot → Prop) (b j : Nat) (r : Slot) : Prop := Q r ∧ (r.bucket = b → j ≤ r.slot)

theorem Ahead.next {b j : Nat} {Q : Slot → Prop} {r : Slot} (h : Ahead li (FromSlot Q b j) r) :
    r = ⟨li, b, j⟩ ∨ Ahead li (FromSlot Q b (j + 1)) r := by
  obtain ⟨rl, rb, rj⟩ := r
  rcases h with hr | ⟨hr, hQ, hfrom⟩
  · exact .inr (.inl hr)
  · dsimp only at hr hfrom
    by_cases hb : rb = b
    · by_cases hjj : rj = j
      · left
        rw [hr, hb, hjj]
      · exact .inr (.inr ⟨hr, hQ, fun _ => by have := hfrom hb; dsimp only; omega⟩)
    · exact .inr (.inr ⟨hr, hQ, fun h => absurd h hb⟩)

theorem visitBucket_wp (hp : 2 ≤ H.hashpower) (hok : ∀ l m, ok l m → Calm H l m) {n i : Nat}
    {Q : Slot → Prop} {side : Side} {level b : Nat} (hlo : lo ≤ base) (hl : level = base + i) :
    ∀ k j f foundEmpty s, j + k = assocNum →
    Updating H t key value kv Pre w₀ succ lo s →
    Passing H key kv Pre w₀ succ base (base + i) (FromSlot Q b j) f s →
    wp (ctx H ok t)
      (Visited H t key value kv Pre w₀ succ lo base (base + i) (FromSlot Q b assocNum))
      (visitBucket H t ⟨key, true, true⟩ (List.range' base n) side i level b k j f foundEmpty) s := by
  intro k
  induction k with
  | zero =>
    intro j f _ s hj hs hf
    obtain rfl : j = assocNum := hj
    exact wp_ret_of (visited_stable hp) ⟨hs, hf⟩
      fun _ _ h => h
  | succ k ih =>
    intro j f foundEmpty s hj hs hf
    have hstep : ∀ r, Ahead (base + i) (FromSlot Q b j) r →
        r = ⟨level, b, j⟩ ∨ Ahead (base + i) (FromSlot Q b (j + 1)) r := by
      rw [hl]
      exact fun r hr => hr.next
    refine wp_bind (wp_mono ?_ (visitSlot_wp hp hok hlo hl hstep
      ⟨hs, hf⟩))
    rintro v m - hv
    cases v with
    | next f e => exact ih (j + 1) f e m (by omega) hv.1 hv.2
    | done f => exact hv.2.elim
    | retry f =>
      exact wp_ret_of (visited_stable hp) hv
        fun _ _ h => h

/-- A pass over the levels `base + i`, …, `base + i + k - 1`. -/
theorem visitLevels_wp (hp : 2 ≤ H.hashpower) (hok : ∀ l m, ok l m → Calm H l m) {n : Nat}
    (hlo : lo ≤ base) : ∀ k i f s,
    Updating H t key value kv Pre w₀ succ lo s →
    Passing H key kv Pre w₀ succ base (base + i) (fun _ => True) f s →
    wp (ctx H ok t)
      (Visited H t key value kv Pre w₀ succ lo base (base + (i + k)) fun _ => True)
      (visitLevels H t ⟨key, true, true⟩ (List.range' base n) (List.range' (base + i) k) i f) s := by
  intro k
  induction k with
  | zero =>
    intro i f s hs hf
    exact wp_ret_of (C := ctx H ok t) (visited_stable hp (v := .next f false)) ⟨hs, hf⟩
      fun _ _ h => h
  | succ k ih =>
    intro i f s hs hf
    have hretry : ∀ f m, Updating H t key value kv Pre w₀ succ lo m → wp (ctx H ok t)
          (Visited H t key value kv Pre w₀ succ lo base (base + (i + (k + 1))) fun _ => True)
          (pure (.retry f)) m := fun f m hm =>
      wp_ret_of (C := ctx H ok t) (visited_stable hp (v := .retry f)) ⟨hm, trivial⟩
        fun _ _ h => h
    refine wp_bind (wp_mono ?_ (visitBucket_wp (Q := fun _ => True) hp hok hlo rfl
      assocNum 0 f false s (Nat.zero_add _) hs (hf.weaken fun r w _ hr => ?_)))
    · rintro v m - hv
      cases v with
      | done f => exact hv.2.elim
      | retry f => exact hretry f m hv.1
      | next f e =>
        refine wp_bind (wp_mono ?_ (visitBucket_wp
          (Q := FromSlot (fun _ => True) (H.fIdx key (base + i)) assocNum) hp hok hlo rfl
          assocNum 0 f false m (Nat.zero_add _) hv.1 (Passing.weaken hv.2 fun r w _ hr => ?_)))
        · rintro v m hi hv
          cases v with
          | done f => exact hv.2.elim
          | retry f => exact hretry f m hv.1
          | next f e =>
            rw [show i + (k + 1) = i + 1 + k by omega]
            refine ih (i + 1) f m hv.1 (Passing.weaken hv.2 fun r w ha hr => ?_)
            -- both buckets of the key in this level are behind
            rcases hr with hr | ⟨hr, ⟨_, hfirst⟩, hsecond⟩
            · rcases Nat.lt_or_ge (base + (i + 1)) r.level with h | h
              · exact .inl h
              · exact .inr ⟨by omega, trivial⟩
            · obtain ⟨hb, hj⟩ := ha.isSlot hi
              rw [hr] at hb
              rcases hb with hb | hb
              · exact absurd (hfirst hb) (Nat.not_le_of_lt hj)
              · exact absurd (hsecond hb) (Nat.not_le_of_lt hj)
        · exact hr.imp_right fun h => ⟨h.1, h.2, fun _ => Nat.zero_le _⟩
    · exact hr.imp_right fun h => ⟨h.1, trivial, fun _ => Nat.zero_le _⟩

/-- What `find` returns: the slot of the item, if it was seen. -/
def Located (H : Table K) (key : K) (kv : Word) (Pre : Prop) (w₀ : Word) (succ : Bool) (f : Find)
    (m : Mem K T) : Prop :=
  f.result.isFound = true → ∃ q, f.e = some q ∧ addr f.oldE ≠ 0 ∧
    (Pre ∨ succ = true → f.oldE = wordOf H key kv w₀ succ) ∧ Listed key (addr f.oldE) m ∧
    Traced key (fun _ => False) q f.oldE m

omit [DecidableEq K] in
theorem located_stable (hp : 2 ≤ H.hashpower) :
    Stable H t fun m => Updating H t key value kv Pre w₀ succ lo m ∧
      Located H key kv Pre w₀ succ f m := by
  refine stable_of fun hu hi hm h => ⟨h.1.move hp hi hu hm, fun hy => ?_⟩
  obtain ⟨q, he, hne, hw, hl, ht⟩ := h.2 hy
  have hf := h.1.foreign hi hu
  exact ⟨q, he, hne, hw, hl.move hf hm, ht.move (fun _ _ h _ => h) hi hf hm⟩

omit [DecidableEq K] in
/-- A pass that ends with the published snapshot has visited every level. -/
theorem Passing.located (h : Passing H key kv Pre w₀ succ base li (fun _ => True) f m)
    (hi : Inv H m) (hli : m.cur.firstLevel < li) : Located H key kv Pre w₀ succ f m := by
  intro hy
  obtain ⟨q, hq, hl, ht⟩ := h.found hy
  refine ⟨q, hq.e, hq.addr_ne, hq.word, hl, ht.imp_left fun ⟨haq, hall⟩ => ⟨haq, ?_⟩⟩
  intro r w hr ha
  refine (hall r w hr ha).imp_left fun hahead => ?_
  have := hi.below r ha.ne_zero
  rcases hahead with h | ⟨h, _⟩ <;> omega

theorem findLoop_wp (hp : 2 ≤ H.hashpower) (hok : ∀ l m, ok l m → Calm H l m) :
    ∀ n ptr mt last s, Snap ptr mt s → lo ≤ mt.lastLevel →
    mt.lastLevel ≤ mt.firstLevel → Updating H t key value kv Pre w₀ succ lo s →
    wp (ctx H ok t) (fun f m => Updating H t key value kv Pre w₀ succ lo m ∧
      Located H key kv Pre w₀ succ f m) (findLoop H t ⟨key, true, true⟩ n ptr mt last) s := by
  intro n
  induction n with
  | zero => exact fun _ _ _ _ _ _ _ _ => trivial
  | succ n ih =>
    intro ptr mt last s hs hlo hle hu
    have hst : Stable H t fun m => Snap ptr mt m ∧ Updating H t key value kv Pre w₀ succ lo m :=
      fun _ _ hr h => ⟨snap_stable _ _ hr h.1, updating_stable hp _ _ hr h.2⟩
    refine wp_bind (wp_mono ?_ (wp_quiet hst ⟨hs, hu⟩
      (collectLevels_wp maxLevel mt.lastLevel s hs hle)))
    rintro levels m hi ⟨rfl, hm, hu⟩
    have hstart : Passing H key kv Pre w₀ succ mt.lastLevel (mt.lastLevel + 0) (fun _ => True)
        { lastBucketEntry := last } m := by
      refine ⟨fun _ r w hr _ => ?_, fun hy => by cases hy⟩
      have := (hm.bounds hi).2.1
      rcases Nat.lt_or_ge mt.lastLevel r.level with h | h
      · exact .inl h
      · exact .inr ⟨by omega, trivial⟩
    refine wp_bind (wp_mono ?_ (wp_snap_move hm (visitLevels_wp hp hok hlo _ 0 _ m hu
      hstart)))
    rintro v m - ⟨hv, hm⟩
    cases v with
    | done f => exact hv.2.elim
    | retry f => exact ih ptr mt f.lastBucketEntry m hm hlo hle hv.1
    | next f e =>
      have hst : Stable H t fun m => Snap ptr mt m ∧ Visited H t key value kv Pre w₀ succ lo
          mt.lastLevel (mt.lastLevel + (0 + (mt.firstLevel + 1 - mt.lastLevel)))
          (fun _ => True) (.next f e) m :=
        fun _ _ hr h => ⟨snap_stable _ _ hr h.1, visited_stable hp _ _ hr h.2⟩
      refine wp_read_of hst ⟨hm, hv⟩ fun m hi hm => ?_
      obtain ⟨hm, hu, hpass⟩ := hm
      split
      · next hptr =>
        have hcur : m.cur = mt := hm.cur hptr
        refine wp_ret_of (located_stable hp)
          ⟨hu, Passing.located hpass hi ?_⟩ fun _ _ h => h
        rw [hcur]
        omega
      · exact ih _ _ _ m (snap_cur m) hu.live (Nat.le_of_lt hi.chain) hu

/-! ## `generic_update` -/

omit [DecidableEq K] in
theorem updateRedo_wp {ptr : Nat} {tmp : Nat × Meta} {s : Mem K T} :
    wp (quiet H ok t) (fun _ _ => True) (updateRedo f ptr tmp) s := by
  rw [updateRedo]
  split
  · exact wp_ret fun _ _ _ => trivial
  · split
    · split
      · exact wp_read fun _ _ _ _ => wp_ret fun _ _ _ => trivial
      · exact wp_ret fun _ _ _ => trivial
    · exact wp_ret fun _ _ _ => trivial

omit [DecidableEq K] in
/-- The compare-exchange of an update: its word is the only one of the key. -/
theorem Updating.write {q : Slot} (h : Updating H t key value kv Pre w₀ false lo m) (hne : kv ≠ 0)
    (haddr : addr kv = kv) (ha : m.At key q f.oldE) (ht : Traced key (fun _ => False) q f.oldE m)
    (hcalm : m.hold ≠ .none → q ≠ m.src) :
    Updating H t key value kv Pre w₀ true m.cur.lastLevel (Mem.disown kv
      { m with slots := update m.slots q (setPartial kv (H.par key)) }) := by
  -- no other slot had the key
  have honly : ∀ r w, m.cur.lastLevel ≤ r.level → m.At key r w → r = q := by
    intro r w hr har
    obtain ⟨_, hall⟩ := ht.resolve_right fun h => h.1 ha
    rcases hall r w hr har with h | h | ⟨hh, hsrc⟩
    · exact h.elim
    · exact h
    · exact absurd hsrc.symm (hcalm fun hn => by rw [hn] at hh; cases hh)
  have haddr' : addr (setPartial kv (H.par key)) = kv := addr_setPartial haddr _
  refine ⟨h.mine.put q _, Nat.le_refl _, fun _ r w hr har => ?_, fun hpre => ?_⟩
  · by_cases hrq : r = q
    · rw [← har.1, hrq]
      exact update_self ..
    · refine absurd (honly r w hr ?_) hrq
      obtain ⟨hs, v, hv⟩ := har
      have hslot : m.slots r = w := (update_of_ne hrq ..).symm.trans hs
      refine ⟨hslot, v, ?_⟩
      obtain ⟨hz, he⟩ := entryAt_eq_some.mp hv
      dsimp only [Mem.disown] at hz he
      rw [update_of_ne hrq] at hz he
      exact entryAt_eq_some.mpr ⟨hz, he⟩
  · obtain ⟨p, hs, hap⟩ := h.safe hpre
    obtain rfl := honly p _ hs.1 hap
    refine ⟨p, hs, ?_⟩
    rw [wordOf, if_pos rfl]
    exact Mem.at_of_entry (update_self ..) (by rw [haddr']; exact hne)
      (by rw [haddr']; exact h.mine.entry)

/-- A successful update: its word is the only one of the key in the levels that
are left, and it is in a safe slot if the item was in one. -/
def Updated (H : Table K) (t : Nat) (key : K) (value : T) (kv : Word) (Pre : Prop) (w₀ : Word)
    (r : Ret K T) (m : Mem K T) : Prop :=
  r.found = true → addr kv = kv ∧ ∃ lo, Updating H t key value kv Pre w₀ true lo m

theorem updateLoop_wp (hp : 2 ≤ H.hashpower) (hok : ∀ l m, ok l m → Calm H l m) (hne : kv ≠ 0)
    (haddr : addr kv = kv) : ∀ n ptr mt succ lo s, Snap ptr mt s → lo ≤ mt.lastLevel →
    mt.lastLevel ≤ mt.firstLevel → Updating H t key value kv Pre w₀ succ lo s →
    wp (ctx H ok t) (Updated H t key value kv Pre w₀)
      (updateLoop H t key kv (setPartial kv (H.par key)) n ptr mt succ) s := by
  intro n
  induction n with
  | zero => exact fun _ _ _ _ _ _ _ _ _ => trivial
  | succ n ih =>
    intro ptr mt succ lo s hs hlo hle hu
    have hret : ∀ lo m, Updating H t key value kv Pre w₀ true lo m →
        wp (ctx H ok t) (Updated H t key value kv Pre w₀) (pure { found := true }) m :=
      fun lo m hm => wp_ret_of (updating_stable hp) hm
        fun _ _ h _ => ⟨haddr, lo, h⟩
    refine wp_bind (wp_mono ?_ (wp_snap_move hs (findLoop_wp hp hok H.retries ptr mt
      none s hs hlo hle hu)))
    rintro f m hi ⟨hm, hsnap⟩
    split
    · next hfound =>
      obtain ⟨q, he, hz, hw, _⟩ := hm.2 hfound
      split
      · next hdone =>
        obtain ⟨rfl, _⟩ := hdone
        exact hret lo m hm.1
      · next hnot =>
        have hsucc : succ = false := by
          cases succ with
          | false => rfl
          | true => exact absurd ⟨rfl, hw (.inr rfl)⟩ hnot
        subst hsucc
        have hst : Stable H t fun m => (Updating H t key value kv Pre w₀ false lo m ∧
            Located H key kv Pre w₀ false f m) ∧ Snap ptr mt m :=
          fun _ _ hr h => ⟨located_stable hp _ _ hr h.1, snap_stable _ _ hr h.2⟩
        simp only [he]
        refine wp_casSlot hst ⟨hm, hsnap⟩ ?_ fun m _ hm _ =>
          ih ptr mt false lo m hm.2 hlo hle hm.1.1
        intro m hi hm hcalm hold
        obtain ⟨q', he', _, _, ⟨v, hv, _⟩, htr⟩ := hm.1.2 hfound
        cases he.symm.trans he'
        have ha : m.At key q f.oldE := Mem.at_of_entry hold hz hv
        have hmine := hm.1.1.mine
        have hput := Move.put (.update key value kv) key value q
          (setPartial kv (H.par key)) hmine.running rfl
          (by rw [addr_setPartial haddr]; exact hmine.entry)
          (hmine.placed hne haddr (ha.isSlot hi))
          (fun u hu => hmine.owned (by rw [addr_setPartial haddr] at hu; exact hu))
          (hi.below q ha.ne_zero) (.inr ⟨rfl, ha.2, hok _ _ hcalm hold⟩)
        rw [addr_setPartial haddr] at hput
        have hwritten := hm.1.1.write hne haddr ha htr (hok _ _ hcalm hold)
        refine ⟨hput, ?_⟩
        refine wp_read_of (updating_stable hp) hwritten
          fun m₁ hi₁ hm₁ => ?_
        have hst₁ : Stable H t fun m' => Snap m₁.metaPtr m₁.cur m' ∧
            Updating H t key value kv Pre w₀ true m.cur.lastLevel m' :=
          fun _ _ hr h => ⟨snap_stable _ _ hr h.1, updating_stable hp _ _ hr h.2⟩
        refine wp_bind (wp_mono ?_ (wp_quiet hst₁
          ⟨snap_cur m₁, hm₁⟩ updateRedo_wp))
        rintro redo m₂ - ⟨-, hsnap₂, hm₂⟩
        cases redo with
        | true => exact ih _ _ true _ m₂ hsnap₂ hm₁.live (Nat.le_of_lt hi₁.chain) hm₂
        | false => exact hret _ m₂ hm₂
    · cases succ with
      | true => exact wp_bind (wp_ret fun m' hr _ =>
        hret lo m' (updating_stable hp _ _ hr hm.1))
      | false =>
        exact wp_bind (wp_deleteEntry (updating_stable hp) hm.1 (fun _ h => h.mine.owner)
          fun _ _ _ => wp_ret fun _ _ _ => wp_ret fun _ _ _ h => by cases h)

/-- When the update starts, the key has the word `w₀` if `Pre` holds. -/
structure Starting (t : Nat) (key : K) (value : T) (kv : Word) (Pre : Prop) (w₀ : Word)
    (m : Mem K T) : Prop where
  running : (t, .update key value kv) ∈ m.ops
  same : Pre → m.Same key w₀ 0
  safe : Pre → ∃ p, m.Safe p ∧ m.At key p w₀

theorem genericUpdate_wp (hp : 2 ≤ H.hashpower) (hok : ∀ l m, ok l m → Calm H l m)
    (hs : Starting t key value kv Pre w₀ s) :
    wp (ctx H ok t) (Updated H t key value kv Pre w₀) (genericUpdate H t key value kv) s := by
  have hst : Stable H t (Starting t key value kv Pre w₀) := by
    refine stable_of fun hu hi hm h => ?_
    have hf := hi.foreign h.running rfl rfl hu
    refine ⟨hm.ops_kept hu h.running, fun hpre => (h.same hpre).move (Nat.zero_le _) hi hf hm,
      fun hpre => ?_⟩
    obtain ⟨p, hs, ha⟩ := h.safe hpre
    obtain ⟨q, hs', ha', _⟩ := hm.at_safe hi hp hf hs ha
    exact ⟨q, hs', ha'⟩
  refine wp_bind (wp_move hst hs fun m hi hm _ => ?_)
  by_cases hnew : kv ≠ 0 ∧ addr kv = kv ∧ m.entries kv = none
  · simp only [if_pos hnew]
    have hmove : Move H t m (m.allocate t kv (key, value)) :=
      .allocate (.update key value kv) (key, value) kv hm.running rfl hnew
    have hupdating : Updating H t key value kv Pre w₀ false 0 (m.allocate t kv (key, value)) := by
      refine ⟨⟨hm.running, update_self .., update_self ..⟩, Nat.zero_le _,
        fun hg q w hq ha => ?_, fun hpre => ?_⟩
      · have hpre : Pre := hg.resolve_right nofun
        exact hm.same hpre q w hq (hmove.at_before hi ha rfl)
      · obtain ⟨p, hs, ha⟩ := hm.safe hpre
        exact ⟨p, hs, hmove.at_same hi ha rfl⟩
    refine ⟨hmove, ?_⟩
    refine wp_ret_of (updating_stable hp) hupdating fun m₁ _ hm₁ => ?_
    refine wp_read_of (updating_stable hp) hm₁ fun m₂ hi₂ hm₂ => ?_
    exact updateLoop_wp hp hok hnew.1 hnew.2.1 H.retries _ _ false 0 m₂ (snap_cur m₂)
      (Nat.zero_le _) (Nat.le_of_lt hi₂.chain) hm₂
  · simp only [if_neg hnew]
    exact ⟨.stay, trivial⟩

end Update

end ShmPcc.ClevelHash
