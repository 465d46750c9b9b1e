import ShmPcc.Proofs.ClevelStable

/-!
# `search` among other threads

A key on which no operation runs is read by `search`. Its item is in a slot
ahead of the rehasher; the rehasher copies it upwards before it clears it, and
`search` walks upwards, so the item is in front of the search until the search
has it: it can only leave the snapshot through the top, and then the snapshot
is no longer the published one and the search starts again.
-/

namespace ShmPcc.ClevelHash

open Prog

variable {K T : Type}

/-! ## Where the item of a key is -/

section Places

variable {H : Table K} {t : Nat} {m m' : Mem K T} {k : K} {R : T → Prop} {S : Prop}

/-- The calls on the key are `L`, none of them running, and `X` holds; or there
are more calls by now. -/
def Settled (k : K) (L : List (Op K T)) (X : Mem K T → Prop) (m : Mem K T) : Prop :=
  L <+: m.calls k ∧ (m.calls k = L → (∀ u, m.Foreign k u) ∧ X m)

theorem Settled.imp {L : List (Op K T)} {X Y : Mem K T → Prop} (h : Settled k L X m)
    (hXY : X m → Y m) : Settled k L Y m :=
  ⟨h.1, fun hL => ⟨(h.2 hL).1, hXY (h.2 hL).2⟩⟩

theorem Settled.move {L : List (Op K T)} {X : Mem K T → Prop}
    (hX : m.Foreign k t → X m → X m') (hm : Move H t m m') (h : Settled k L X m) :
    Settled k L X m' := by
  refine ⟨h.1.trans (hm.calls k), fun hL => ?_⟩
  have hL' : m.calls k = L :=
    ((hL ▸ hm.calls k : m.calls k <+: L).eq_of_length_le h.1.length_le)
  obtain ⟨hf, hx⟩ := h.2 hL'
  exact ⟨fun u => hm.foreign (hL.trans hL'.symm) (hf u), hX (hf t) hx⟩

/-- The items of the key in the levels from `lo` on have values in `R`. -/
def Mem.Good (m : Mem K T) (k : K) (R : T → Prop) (lo : Nat) : Prop :=
  ∀ q w v, lo ≤ q.level → m.At k q w → m.entries (addr w) = some (k, v) → R v

variable {lo : Nat}

theorem Mem.Good.move (h : m.Good k R lo) (hlo : lo ≤ m.cur.lastLevel) (hi : Inv H m)
    (hm : Move H t m m') (hf : m.Foreign k t) : m'.Good k R lo := by
  intro q w v hq ha he
  rcases hm.at_origin hi hf ha with ha | ⟨ha, _⟩
  · exact h q w v hq ha (hm.entry_origin hf he)
  · exact h m.src w v hlo ha (hm.entry_origin hf he)

/-- The key is in a safe slot above level `li`, or in level `li` where `P`
holds. -/
def Mem.Seek (m : Mem K T) (k : K) (li : Nat) (P : Slot → Prop) : Prop :=
  ∃ p w, m.Safe p ∧ m.At k p w ∧ (li < p.level ∨ p.level = li ∧ P p)

variable {li : Nat} {P : Slot → Prop}

theorem Mem.Seek.move (h : m.Seek k li P) (hp : 2 ≤ H.hashpower) (hi : Inv H m) (hm : Move H t m m')
    (hf : m.Foreign k t) : m'.Seek k li P := by
  obtain ⟨p, w, hs, ha, hpos⟩ := h
  obtain ⟨q, hs', ha', hq⟩ := hm.at_safe hi hp hf hs ha
  refine ⟨q, w, hs', ha', ?_⟩
  rcases hq with rfl | hq
  · exact hpos
  · left
    omega

/-- What a search knows in level `li` of its snapshot, which starts at `lo`:
the values it can meet, and, if it has to find something, that this is still in
front of it. -/
structure Look (k : K) (R : T → Prop) (S : Prop) (lo li : Nat) (P : Slot → Prop)
    (m : Mem K T) : Prop where
  good : m.Good k R lo
  live : lo ≤ m.cur.lastLevel
  seek : S → m.Seek k li P

theorem Look.move (h : Look k R S lo li P m) (hp : 2 ≤ H.hashpower) (hi : Inv H m)
    (hm : Move H t m m') (hf : m.Foreign k t) :
    Look k R S lo li P m' where
  good := h.good.move h.live hi hm hf
  live := Nat.le_trans h.live hm.later.last
  seek := fun hS => (h.seek hS).move hp hi hm hf

theorem Look.next (hi : Inv H m)
    (h : Look k R S lo li (fun q => (True ∧ q.bucket ≠ H.fIdx k li) ∧ q.bucket ≠ H.sIdx k li) m) :
    Look k R S lo (li + 1) (fun _ => True) m := by
  refine ⟨h.good, h.live, fun hS => ?_⟩
  obtain ⟨p, w, hsafe, ha, hpos⟩ := h.seek hS
  refine ⟨p, w, hsafe, ha, ?_⟩
  rcases hpos with hlt | ⟨heq, ⟨_, hf⟩, hs⟩
  · rcases Nat.lt_or_eq_of_le hlt with h | h
    · exact .inl h
    · exact .inr ⟨h.symm, trivial⟩
  · have hb := (ha.isSlot hi).1
    rw [heq] at hb
    exact absurd hb (not_or.mpr ⟨hf, hs⟩)

theorem Look.top (hi : Inv H m) (h : Look k R S lo (li + 1) P m) (hS : S) :
    li < m.cur.firstLevel := by
  obtain ⟨p, w, _, ha, hpos⟩ := h.seek hS
  have := hi.below p ha.ne_zero
  omega

end Places

/-! ## `search` -/

section Search

variable {H : Table K} {ok : Site → Mem K T → Prop} {t : Nat} {k : K}
  {L : List (Op K T)} {R : T → Prop} {S : Prop} {lo li : Nat}

variable {P : Slot → Prop}

theorem look_stable (hp : 2 ≤ H.hashpower) : Stable H t (Settled k L (Look k R S lo li P)) :=
  stable_of fun _ hi hm h => h.move (fun hf hl => hl.move hp hi hm hf) hm

theorem fact_stable {X : Prop} : Stable H t (Settled k L fun _ : Mem K T => X) :=
  stable_of fun _ _ hm h => h.move (fun _ hx => hx) hm

/-- A slot was loaded that looks like one of the key: what it points to is right
if it has the key, and has it if this was the slot sought. -/
structure Loaded (k : K) (R : T → Prop) (S : Prop) (lo li : Nat) (P : Slot → Prop) (w : Word)
    (m : Mem K T) : Prop where
  good : m.Good k R lo
  live : lo ≤ m.cur.lastLevel
  right : ∀ v, m.entries (addr w) = some (k, v) → R v
  seek : S → m.Seek k li P ∨ ∃ p, m.Safe p ∧ m.At k p w

theorem loaded_stable (hp : 2 ≤ H.hashpower) {w : Word} :
    Stable H t (Settled k L (Loaded k R S lo li P w)) := by
  refine stable_of fun _ hi hm h => h.move (fun hf hl => ?_) hm
  refine ⟨hl.good.move hl.live hi hm hf, Nat.le_trans hl.live hm.later.last,
    fun v he => hl.right v (hm.entry_origin hf he), fun hS => ?_⟩
  refine (hl.seek hS).imp (fun h => h.move hp hi hm hf) ?_
  rintro ⟨p, hs, ha⟩
  obtain ⟨q, hs', ha', _⟩ := hm.at_safe hi hp hf hs ha
  exact ⟨q, hs', ha'⟩

/-- What a search returns when it finds something. -/
def Got (k : K) (R : T → Prop) (kv : K × T) : Prop := kv.1 = k ∧ R kv.2

/-- What a search returns from one pass over its snapshot. -/
def Passed (k : K) (L : List (Op K T)) (R : T → Prop) (S : Prop) (mt : Meta) :
    Option (Ret K T) → Mem K T → Prop
  | some r => Settled k L fun _ => r.found = true ∧ ∃ kv, r.value = some kv ∧ Got k R kv
  | none => Settled k L fun m => S → mt.firstLevel < m.cur.firstLevel

theorem passed_none_stable {mt : Meta} :
    Stable H t (Settled k L fun m : Mem K T => S → mt.firstLevel < m.cur.firstLevel) :=
  stable_of fun _ _ hm h => h.move (fun _ hx hS => Nat.lt_of_lt_of_le (hx hS) hm.later.first) hm

/-- A search for a key on which nothing runs returns one of the values its items
have, and finds the key if one of them is in a safe slot. -/
def Answer (k : K) (L : List (Op K T)) (R : T → Prop) (S : Prop) (r : Ret K T) : Mem K T → Prop :=
  Settled k L fun _ => (r.found = true → ∃ kv, r.value = some kv ∧ Got k R kv) ∧
    (S → r.found = true)

/-- What a search needs to know about the key when it starts. -/
structure Known (k : K) (R : T → Prop) (S : Prop) (m : Mem K T) : Prop where
  good : m.Good k R m.cur.lastLevel
  safe : S → m.Keeps k

theorem Known.move {m m' : Mem K T} (h : Known k R S m) (hp : 2 ≤ H.hashpower) (hi : Inv H m)
    (hm : Move H t m m') (hf : m.Foreign k t) : Known k R S m' := by
  refine ⟨fun q w v hq => ?_, fun hS => ?_⟩
  · exact h.good.move (Nat.le_refl _) hi hm hf q w v (Nat.le_trans hm.later.last hq)
  · exact (h.safe hS).move hp hi hm hf

theorem Known.look {m : Mem K T} (h : Known k R S m) :
    Look k R S m.cur.lastLevel m.cur.lastLevel (fun _ => True) m := by
  refine ⟨h.good, Nat.le_refl _, fun hS => ?_⟩
  obtain ⟨p, w, hs, ha⟩ := h.safe hS
  exact ⟨p, w, hs, ha, (Nat.lt_or_eq_of_le hs.1).imp_right fun h => ⟨h.symm, trivial⟩⟩

theorem known_stable (hp : 2 ≤ H.hashpower) : Stable H t (Settled k L (Known k R S)) :=
  stable_of fun _ hi hm h => h.move (fun hf hk => hk.move hp hi hm hf) hm

variable [DecidableEq K]

theorem searchBucket_wp (hp : 2 ≤ H.hashpower) (hlo : lo ≤ li) {b : Nat} :
    ∀ n j s, assocNum ≤ j + n →
    Settled k L (Look k R S lo li fun q => P q ∧ (q.bucket = b → j ≤ q.slot)) s →
    wp (quiet H ok t)
      (fun r m => match r with
        | some (_, kv) => Settled k L (fun _ => Got k R kv) m
        | none => Settled k L (Look k R S lo li fun q => P q ∧ q.bucket ≠ b) m)
      (searchBucket H k li b n j) s := by
  intro n
  induction n with
  | zero =>
    intro j s hj hs
    refine wp_ret_of (look_stable hp) hs fun m hi hm => hm.imp ?_
    rintro ⟨hg, hl, hseek⟩
    refine ⟨hg, hl, fun hS => ?_⟩
    obtain ⟨p, w, hsafe, ha, hpos⟩ := hseek hS
    refine ⟨p, w, hsafe, ha, hpos.imp_right fun ⟨h1, h2, h3⟩ => ⟨h1, h2, fun hb => ?_⟩⟩
    have := (ha.isSlot hi).2
    have := h3 hb
    omega
  | succ n ih =>
    intro j s hj hs
    refine wp_read_of (look_stable hp) hs fun m hi hm => ?_
    -- the slot sought is another one than this, or this one
    have hstep : ∀ {m : Mem K T}, m.Seek k li (fun q => P q ∧ (q.bucket = b → j ≤ q.slot)) →
        m.Seek k li (fun q => P q ∧ (q.bucket = b → j + 1 ≤ q.slot)) ∨
          ∃ w, m.Safe ⟨li, b, j⟩ ∧ m.At k ⟨li, b, j⟩ w := by
      rintro m ⟨⟨l, b', i⟩, w, hsafe, ha, hpos⟩
      by_cases heq : l = li ∧ b' = b ∧ i = j
      · obtain ⟨rfl, rfl, rfl⟩ := heq
        exact .inr ⟨w, hsafe, ha⟩
      · refine .inl ⟨_, w, hsafe, ha, hpos.imp_right fun ⟨h1, h2, h3⟩ => ⟨h1, h2, fun hb => ?_⟩⟩
        have := h3 hb
        dsimp only at *
        omega
    split
    · next htest =>
      have hload : Settled k L (Loaded k R S lo li
          (fun q => P q ∧ (q.bucket = b → j + 1 ≤ q.slot)) (m.slots ⟨li, b, j⟩)) m := by
        refine hm.imp fun hl => ⟨hl.good, hl.live, fun v he => ?_, fun hS => ?_⟩
        · exact hl.good ⟨li, b, j⟩ _ v hlo (Mem.at_of_entry rfl htest.2 he) he
        · refine (hstep (hl.seek hS)).imp_right fun ⟨w, hsafe, ha⟩ => ⟨_, hsafe, ?_⟩
          rw [ha.1]
          exact ha
      refine wp_loadEntry (loaded_stable hp) hload fun m' kv hi' hm' he => ?_
      split
      · next hk =>
        refine wp_ret_of fact_stable (hm'.imp fun hl => ⟨hk, ?_⟩)
          fun _ _ h => h
        exact hl.right kv.2 (by rw [he, ← hk])
      · next hk =>
        refine ih (j + 1) m' (by omega) (hm'.imp fun hl => ⟨hl.good, hl.live, fun hS => ?_⟩)
        refine (hl.seek hS).resolve_right ?_
        rintro ⟨p, _, ha⟩
        obtain ⟨v, hv⟩ := ha.entry
        cases he.symm.trans hv
        exact hk rfl
    · next htest =>
      refine ih (j + 1) m (by omega) (hm.imp fun hl => ⟨hl.good, hl.live, fun hS => ?_⟩)
      refine (hstep (hl.seek hS)).resolve_right ?_
      rintro ⟨w, _, _, v, hv⟩
      exact entryAt_ne_of_mismatch hi.placed htest v hv

theorem searchBucket_all (hp : 2 ≤ H.hashpower) (hlo : lo ≤ li) {ptr b : Nat} {mt : Meta}
    (P : Slot → Prop) {s : Mem K T} (hsnap : Snap ptr mt s)
    (hs : Settled k L (Look k R S lo li P) s) :
    wp (quiet H ok t)
      (fun r m => (match r with
        | some (_, kv) => Settled k L (fun _ => Got k R kv) m
        | none => Settled k L (Look k R S lo li fun q => P q ∧ q.bucket ≠ b) m) ∧ Snap ptr mt m)
      (searchBucket H k li b assocNum 0) s := by
  refine wp_frame snap_stable (fun _ he h => he ▸ h) hsnap
    (searchBucket_wp hp hlo assocNum 0 s (by omega) (hs.imp fun hl => ⟨hl.good, hl.live, ?_⟩))
  intro hS
  obtain ⟨p, w, hsafe, ha, hpos⟩ := hl.seek hS
  exact ⟨p, w, hsafe, ha, hpos.imp_right fun h => ⟨h.1, h.2, fun _ => Nat.zero_le _⟩⟩

theorem searchLevels_wp (hp : 2 ≤ H.hashpower) {ptr : Nat} {mt : Meta} : ∀ n li i s,
    mt.lastLevel ≤ li → li ≤ mt.firstLevel → Snap ptr mt s →
    Settled k L (Look k R S mt.lastLevel li fun _ => True) s →
    wp (quiet H ok t) (Passed k L R S mt) (searchLevels H k mt n li i) s := by
  intro n
  induction n with
  | zero => exact fun _ _ _ _ _ _ _ => trivial
  | succ n ih =>
    intro li i s hlo hhi hsnap hs
    have hfound : ∀ (j b : Nat) (kv : K × T) (m : Mem K T), Settled k L (fun _ => Got k R kv) m →
        wp (quiet H ok t) (Passed k L R S mt) (pure (some
          { found := true, levelIdx := i % 256, bucketIdx := b, slotIdx := j,
            value := some kv })) m := by
      intro j b kv m hgot
      refine wp_ret_of fact_stable hgot fun m' _ h => ?_
      exact ⟨h.1, fun hL => ⟨(h.2 hL).1, rfl, kv, rfl, (h.2 hL).2⟩⟩
    refine wp_bind (wp_mono ?_ (searchBucket_all hp hlo (fun _ => True) hsnap hs))
    rintro f m₁ - ⟨hf, hsnap₁⟩
    cases f with
    | some x => exact hfound x.1 _ x.2 m₁ hf
    | none =>
      refine wp_bind (wp_mono ?_ (searchBucket_all hp hlo _ hsnap₁ hf))
      rintro f m₂ hi₂ ⟨hf, hsnap₂⟩
      cases f with
      | some x => exact hfound x.1 _ x.2 m₂ hf
      | none =>
        have hnext := hf.imp (Look.next hi₂)
        have hst : Stable H t fun m => Snap ptr mt m ∧
            Settled k L (Look k R S mt.lastLevel (li + 1) fun _ => True) m :=
          fun _ _ hr h => ⟨snap_stable _ _ hr h.1, look_stable hp _ _ hr h.2⟩
        refine wp_read_of hst ⟨hsnap₂, hnext⟩ fun m hi hm => ?_
        split
        · next heq =>
          refine wp_ret_of passed_none_stable
            (hm.2.imp fun hl hS => ?_) fun _ _ h => h
          rw [← heq]
          exact hl.top hi hS
        · next hne =>
          have hup : li + 1 < m.levels := by
            have := hm.1.bounds hi
            have := hi.top
            omega
          rw [if_pos hup]
          exact ih (li + 1) (i + 1) m (by omega) (by omega) hm.1 hm.2

theorem searchLoop_wp (hp : 2 ≤ H.hashpower) : ∀ n ptr mt s, Snap ptr mt s →
    mt.lastLevel ≤ mt.firstLevel → Settled k L (Known k R S) s →
    Settled k L (Look k R S mt.lastLevel mt.lastLevel fun _ => True) s →
    wp (quiet H ok t) (fun r m => Answer k L R S r m) (searchLoop H k n ptr mt) s := by
  intro n
  induction n with
  | zero => exact fun _ _ _ _ _ _ _ => trivial
  | succ n ih =>
    intro ptr mt s hsnap hle hknown hlook
    have hst : Stable H t fun m => Snap ptr mt m ∧ Settled k L (Known k R S) m :=
      fun _ _ hr h => ⟨snap_stable _ _ hr h.1, known_stable hp _ _ hr h.2⟩
    refine wp_bind (wp_mono ?_ (wp_frame hst
      (fun _ he h => he ▸ h) ⟨hsnap, hknown⟩
      (searchLevels_wp hp mt.span mt.lastLevel 0 s (Nat.le_refl _) hle hsnap hlook)))
    rintro r m - ⟨hr, hm⟩
    cases r with
    | some r =>
      refine wp_ret_of fact_stable hr fun m' _ h => h.imp ?_
      exact fun hx => ⟨fun _ => hx.2, fun _ => hx.1⟩
    | none =>
      have hst' : Stable H t fun m => (Snap ptr mt m ∧ Settled k L (Known k R S) m) ∧
          Settled k L (fun m : Mem K T => S → mt.firstLevel < m.cur.firstLevel) m :=
        fun _ _ hr h => ⟨hst _ _ hr h.1, passed_none_stable _ _ hr h.2⟩
      refine wp_read_of hst' ⟨hm, hr⟩ fun m' hi' hm' => ?_
      split
      · next hptr =>
        refine wp_ret_of fact_stable (hm'.2.imp fun hx => ?_)
          fun _ _ h => h
        refine ⟨fun h => (by cases h), fun hS => ?_⟩
        have := hx hS
        rw [hm'.1.1.cur hptr] at this
        exact absurd this (Nat.lt_irrefl _)
      · exact ih _ _ m' (snap_cur m') (Nat.le_of_lt hi'.chain) hm'.1.2 (hm'.1.2.imp Known.look)

theorem search_wp (hp : 2 ≤ H.hashpower) {s : Mem K T} (hs : Settled k L (Known k R S) s) :
    wp (quiet H ok t) (fun r m => Answer k L R S r m) (search H k) s :=
  wp_read_of (known_stable hp) hs fun m hi hm =>
    searchLoop_wp hp _ _ _ m (snap_cur m) (Nat.le_of_lt hi.chain) hm (hm.imp Known.look)

end Search

end ShmPcc.ClevelHash
