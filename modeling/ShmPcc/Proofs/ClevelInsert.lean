import ShmPcc.Proofs.ClevelStable

/-!
# `generic_insert` among other threads

An insert owes the other threads that all it does is one of the moves: it puts
its own word into empty slots only, in levels that exist, and deletes its entry
only as long as it is in no slot. Where the word ends up is another matter: the
snapshot it was chosen from may be old by then, and the slot in a level that is
dropped or behind the rehasher. Only where the compare-exchange succeeds in a
safe slot the item is there to stay.
-/

namespace ShmPcc.ClevelHash

open Function Prog

variable {K T : Type}

/-- The entry that the operation of a thread allocated, private or in slots. -/
structure Mine (t : Nat) (op : Op K T) (kv : Word) (item : K × T) (pub : Bool) (m : Mem K T) :
    Prop where
  running : (t, op) ∈ m.ops
  entry : m.entries kv = some item
  owner : m.owner kv = if pub = true then none else some t

section Mine

variable {H : Table K} {t : Nat} {op : Op K T} {kv : Word} {item : K × T} {pub : Bool}
  {m m' : Mem K T}

theorem Mine.move (h : Mine t op kv item pub m) (htarget : op.target = some item.1)
    (hi : Inv H m) {u : Nat} (hu : u ≠ t) (hm : Move H u m m') : Mine t op kv item pub m' := by
  have hrun := hm.ops_kept hu h.running
  cases pub with
  | false =>
    obtain ⟨he, ho⟩ := hm.entry_private hi hu h.entry h.owner
    exact ⟨hrun, he, ho⟩
  | true =>
    have hf : ∀ op', (u, op') ∈ m.ops → op'.exclusive = true → op'.target ≠ some item.1 := by
      intro op' hop' hx
      rw [← htarget]
      exact hi.target_ne h.running hop' hu (.inr hx)
    obtain ⟨he, ho⟩ := hm.entry_kept hf h.entry h.owner
    exact ⟨hrun, he, ho⟩

theorem Mine.expanded (h : Mine t op kv item pub m) (he : Expanded m m') :
    Mine t op kv item pub m' :=
  ⟨by rw [he.ops]; exact h.running, by rw [he.entries]; exact h.entry,
    by rw [he.owner]; exact h.owner⟩

theorem Mine.placed (h : Mine t op kv item pub m) (hne : kv ≠ 0) (haddr : addr kv = kv) {q : Slot}
    (hq : H.IsSlot item.1 q) : Placed H m.entries q (setPartial kv (H.par item.1)) := by
  refine ⟨?_, item, ?_, partialOf_setPartial .., hq⟩
  · rw [addr_setPartial haddr]
    exact hne
  · rw [addr_setPartial haddr]
    exact h.entry

theorem Mine.put (h : Mine t op kv item pub m) (q : Slot) (w : Word) :
    Mine t op kv item true (Mem.disown kv { m with slots := update m.slots q w }) :=
  ⟨h.running, h.entry, update_self ..⟩

theorem Mine.owned (h : Mine t op kv item pub m) {u : Nat} (hu : m.owner kv = some u) : u = t := by
  rw [h.owner] at hu
  cases pub with
  | true => cases hu
  | false =>
    injection hu with hu
    exact hu.symm

end Mine

/-! ## Finding a vacancy -/

section Vacancy

variable {H : Table K} {ok : Site → Mem K T → Prop} {t : Nat} {key : K} {s : Mem K T} {hi : Nat}

theorem wp_meets {α : Type} {P : α → Prop} {p : Code K T α} (hp : p.Meets Loads P) :
    wp (quiet H ok t) (fun a _ => P a) p s := by
  have h : wpc (quiet H ok t) (fun _ _ => True) (fun _ _ => True) p s := by
    refine wpc_within (fun _ _ _ _ => trivial)
      (fun hi h => ?_) (fun _ _ _ => trivial) hp.within trivial
    rw [h.2]
    exact ⟨trivial, hi, rfl⟩
  exact wp_of_wpc (wpc_mono (fun _ _ _ h => h.1) (wpc_meets hp h))

theorem findEmptySlotLoop_wp : ∀ n ptr mt (s : Mem K T), Snap ptr mt s →
    mt.lastLevel ≤ mt.firstLevel →
    wp (quiet H ok t) (fun r m => Emptied H key m.cur.firstLevel r.1 ∧ Snap r.2.1 r.2.2 m)
      (findEmptySlotLoop H key n ptr mt) s := by
  intro n
  induction n with
  | zero => exact fun _ _ _ _ _ => trivial
  | succ n ih =>
    intro ptr mt s hs hle
    refine wp_bind (wp_mono ?_ (wp_snap hs (collectLevels_wp maxLevel mt.lastLevel s hs hle)))
    rintro levels m - ⟨rfl, hm⟩
    refine wp_bind (wp_mono ?_ (wp_snap hm (wp_meets (emptyInLevels_meets mt.firstLevel _ ?_))))
    · rintro f m - ⟨hf, hm⟩
      refine wp_read_of snap_stable hm fun m' hi' hm' => ?_
      split
      · refine wp_ret_of snap_stable hm' fun m'' hi'' hm'' => ?_
        exact ⟨⟨hf.1.mono (hm''.bounds hi'').2.2, hf.2⟩, hm''⟩
      · exact ih _ _ m' (snap_cur m') (Nat.le_of_lt hi'.chain)
    · intro cl hcl
      obtain ⟨i, hi, rfl⟩ := List.mem_range'.mp (List.mem_reverse.mp hcl)
      omega

variable [DecidableEq K]

variable {track : Bool} {levels : List Nat}

theorem findLoop_vacant : ∀ n ptr mt last (s : Mem K T), Snap ptr mt s →
    mt.lastLevel ≤ mt.firstLevel →
    wp (quiet H ok t) (fun f m => Vacant H key m.cur.firstLevel f)
      (findLoop H t ⟨key, false, track⟩ n ptr mt last) s := by
  intro n
  induction n with
  | zero => exact fun _ _ _ _ _ _ => trivial
  | succ n ih =>
    intro ptr mt last s hs hle
    refine wp_bind (wp_mono ?_ (wp_snap hs (collectLevels_wp maxLevel mt.lastLevel s hs hle)))
    rintro levels m - ⟨rfl, hm⟩
    refine wp_bind (wp_mono ?_ (wp_snap hm (wp_meets (visitLevels_vacant mt.firstLevel _ 0
      { lastBucketEntry := last } ?_ nofun))))
    · rintro v m hi ⟨hv, hm⟩
      have hret : ∀ f m, Snap ptr mt m → Vacant H key mt.firstLevel f →
          wp (quiet H ok t) (fun f m => Vacant H key m.cur.firstLevel f) (pure f) m :=
        fun f m hm hf => wp_ret_of snap_stable hm fun m' hi' hm' =>
          hf.mono (hm'.bounds hi').2.2
      cases v with
      | done f => exact hret f m hm hv
      | retry f => exact hv.elim
      | next f e =>
        refine wp_read_of snap_stable hm fun m' hi' hm' => ?_
        split
        · exact hret f m' hm' hv
        · exact ih _ _ _ m' (snap_cur m') (Nat.le_of_lt hi'.chain)
    · intro cl hcl
      obtain ⟨i, hi, rfl⟩ := List.mem_range'.mp hcl
      omega

end Vacancy

/-! ## `generic_insert` -/

section Insert

variable {H : Table K} {ok : Site → Mem K T → Prop} {t : Nat} {key : K} {value : T} {kv : Word}

/-- A round of an insert after its search for a vacancy. -/
structure Chosen (H : Table K) (key : K) (checkDuplicate : Bool) (f : Find) (ptr : Nat) (mt : Meta)
    (m : Mem K T) : Prop where
  vacant : Vacant H key m.cur.firstLevel f
  fresh : checkDuplicate = false → f.result.isFound = false
  snap : Snap ptr mt m

theorem chosen_stable {checkDuplicate : Bool} {f : Find} {ptr : Nat} {mt : Meta} :
    Stable H t (Chosen H key checkDuplicate f ptr mt : Mem K T → Prop) :=
  stable_of fun _ _ hm h =>
    ⟨h.vacant.mono hm.later.first, h.fresh, h.snap.later hm.later⟩

/-- An insert with its entry, private or in slots. If `G` holds, it is the only
call on the key so far, and puts its entry into safe slots. -/
structure Inserting (G : Prop) (t : Nat) (key : K) (value : T) (kv : Word) (pub : Bool)
    (m : Mem K T) : Prop where
  mine : Mine t (.insert key value kv) kv (key, value) pub m
  alone : G → Alone t key [.insert key value kv] m
  keeps : G → pub = true → m.calls key = [.insert key value kv] → m.Keeps key

variable {G : Prop}

theorem inserting_stable (hp : 2 ≤ H.hashpower) {pub : Bool} :
    Stable H t (Inserting G t key value kv pub) := by
  refine stable_of fun hu hi hm h => ⟨h.mine.move rfl hi hu hm, fun hg => (h.alone hg).move hm, ?_⟩
  intro hg hpub hcalls
  have halone := h.alone hg
  have hcalls' := ((hcalls ▸ hm.calls key).eq_of_length_le halone.1.length_le)
  exact (h.keeps hg hpub hcalls').move hp hi hm (halone.2 hcalls' _ hu)

theorem Inserting.expanded {pub : Bool} {m m' : Mem K T} (h : Inserting G t key value kv pub m)
    (he : Expanded m m') : Inserting G t key value kv pub m' := by
  refine ⟨h.mine.expanded he, fun hg => ?_, fun hg hpub hcalls => ?_⟩
  · have halone := h.alone hg
    simp only [Alone, Mem.Foreign, he.calls, he.ops] at halone ⊢
    exact halone
  · rw [he.calls] at hcalls
    exact (h.keeps hg hpub hcalls).expanded he

theorem Inserting.put {pub : Bool} {m : Mem K T} (h : Inserting G t key value kv pub m)
    (hne : kv ≠ 0) (haddr : addr kv = kv) (q : Slot) (hq : G → m.Safe q) :
    Inserting G t key value kv true (Mem.disown kv
      { m with slots := update m.slots q (setPartial kv (H.par key)) }) := by
  have haddr' : addr (setPartial kv (H.par key)) = kv := addr_setPartial haddr _
  refine ⟨h.mine.put q _, h.alone, fun hg _ _ => ⟨q, setPartial kv (H.par key), hq hg, ?_⟩⟩
  exact Mem.at_of_entry (update_self ..) (by rw [haddr']; exact hne)
    (by rw [haddr']; exact h.mine.entry)

variable [DecidableEq K]

theorem choose_wp {checkDuplicate : Bool} {ptr : Nat} {mt : Meta} {s : Mem K T}
    (hs : Snap ptr mt s) (hle : mt.lastLevel ≤ mt.firstLevel) :
    wp (quiet H ok t) (fun r m => Chosen H key checkDuplicate r.1 r.2.1 r.2.2 m)
      (if checkDuplicate = true then do
          let f ← find H t ⟨key, false, false⟩ ptr mt
          pure (f, ptr, mt)
        else findEmptySlot H key ptr mt) s := by
  split
  · next hdup =>
    refine wp_map (wp_mono ?_
      (wp_snap hs (findLoop_vacant H.retries ptr mt none s hs hle)))
    rintro f m - ⟨hf, hm⟩
    exact ⟨hf, fun h => absurd (hdup.symm.trans h) (by decide), hm⟩
  · refine wp_mono ?_ (findEmptySlotLoop_wp H.retries ptr mt s hs hle)
    rintro r m - ⟨hf, hm⟩
    exact ⟨hf.1, fun _ => hf.2, hm⟩

theorem insertLoop_wp (hp : 2 ≤ H.hashpower)
    (hG : G → ∀ q m, ok (.insertCas q) m → m.slots q = 0 → m.Safe q) (hne : kv ≠ 0)
    (haddr : addr kv = kv) : ∀ n checkDuplicate expandedFlag s,
    Inserting G t key value kv (!checkDuplicate) s →
    wp (ctx H ok t) (fun r m => r.found = false → Inserting G t key value kv true m)
      (insertLoop H t key kv (setPartial kv (H.par key)) n checkDuplicate expandedFlag) s := by
  intro n
  induction n with
  | zero => exact fun _ _ _ _ => trivial
  | succ n ih =>
    intro checkDuplicate expandedFlag s hs
    have hmine : Stable H t (Inserting G t key value kv (!checkDuplicate)) :=
      inserting_stable hp
    have hret : ∀ m, Inserting G t key value kv true m → wp (ctx H ok t)
        (fun (r : Ret K T) m => r.found = false → Inserting G t key value kv true m)
        (pure { expanded := expandedFlag }) m := fun m hm =>
      wp_ret_of (inserting_stable hp) hm fun _ _ h _ => h
    refine wp_read_of hmine hs fun m hi hm => ?_
    refine wp_bind (wp_mono ?_ (wp_quiet hmine hm
      (choose_wp (snap_cur m) (Nat.le_of_lt hi.chain))))
    intro x m₁ hi₁ hx
    obtain ⟨f, ptr, mt⟩ := x
    obtain ⟨hc, hm₁⟩ := hx
    dsimp only at hc ⊢
    split
    · next hfound =>
      -- the entry is deleted only as long as it is in no slot
      have hdup : checkDuplicate = true := by
        cases checkDuplicate with
        | true => rfl
        | false =>
          rw [hc.fresh rfl] at hfound
          cases hfound
      subst hdup
      exact wp_deleteEntry hmine hm₁ (fun _ h => h.mine.owner) fun _ _ _ =>
        wp_ret fun _ _ _ h => nomatch h
    · split
      · next hvac =>
        obtain ⟨q, he, -, -, -⟩ := hc.vacant hvac.1
        have hst : Stable H t fun m => Chosen H key checkDuplicate f ptr mt m ∧
            Inserting G t key value kv (!checkDuplicate) m :=
          fun _ _ hr h => ⟨chosen_stable _ _ hr h.1, hmine _ _ hr h.2⟩
        simp only [he]
        refine wp_casSlot hst ⟨hc, hm₁⟩ ?_ fun m₂ hi₂ hm₂ _ => ih _ _ m₂ hm₂.2
        intro m₂ hi₂ hm₂ hok hold
        obtain ⟨hc₂, hm₂⟩ := hm₂
        obtain ⟨q', he', hz, hslot, hlevel⟩ := hc₂.vacant hvac.1
        cases he.symm.trans he'
        have hempty : m₂.slots q = 0 := hi₂.placed.addr_eq_zero.mp (by rw [hold]; exact hz)
        have hput := Move.put (.insert key value kv) key value q
          (setPartial kv (H.par key)) hm₂.mine.running rfl
          (by rw [addr_setPartial haddr]; exact hm₂.mine.entry)
          (hm₂.mine.placed hne haddr hslot)
          (fun u hu => hm₂.mine.owned (by rw [addr_setPartial haddr] at hu; exact hu)) hlevel
          (.inl hempty)
        rw [addr_setPartial haddr] at hput
        have hpub := hm₂.put (H := H) hne haddr q fun hg => hG hg q m₂ hok hempty
        refine ⟨hput, ?_⟩
        rw [if_pos rfl]
        split
        · refine wp_read_of (inserting_stable hp) hpub
            fun m₃ _ hm₃ => ?_
          split
          · exact ih false expandedFlag m₃ hm₃
          · exact hret m₃ hm₃
        · exact hret _ hpub
      · refine wp_bind (wp_mono ?_ (wp_expanding hmine (fun _ he h => h.expanded he) hm₁
          (expand_wp hc.snap)))
        exact fun _ m₂ _ hm₂ => ih _ _ m₂ hm₂.2

/-- An insert makes nothing but moves; and if its compare-exchanges only succeed
in safe slots, and it is the only call on the key, then the key is in a safe slot
when it returns from a compare-exchange. -/
theorem genericInsert_wp (hp : 2 ≤ H.hashpower)
    (hG : G → ∀ q m, ok (.insertCas q) m → m.slots q = 0 → m.Safe q) {s : Mem K T}
    (hs : (t, .insert key value kv) ∈ s.ops) (halone : G → Alone t key [.insert key value kv] s) :
    wp (ctx H ok t) (fun r m => r.found = false → Inserting G t key value kv true m)
      (genericInsert H t key value kv) s := by
  have hst : Stable H t fun m : Mem K T => (t, Op.insert key value kv) ∈ m.ops ∧
      (G → Alone t key [.insert key value kv] m) :=
    stable_of fun hu _ hm h => ⟨hm.ops_kept hu h.1, fun hg => (h.2 hg).move hm⟩
  refine wp_bind (wp_move hst ⟨hs, halone⟩ fun m hi hm _ => ?_)
  by_cases hnew : kv ≠ 0 ∧ addr kv = kv ∧ m.entries kv = none
  · simp only [if_pos hnew]
    have hmove : Move H t m (m.allocate t kv (key, value)) :=
      .allocate (.insert key value kv) (key, value) kv hm.1 rfl hnew
    have hstart : Inserting G t key value kv false (m.allocate t kv (key, value)) :=
      ⟨⟨hm.1, update_self .., update_self ..⟩, fun hg => (hm.2 hg).move hmove,
        nofun⟩
    refine ⟨hmove, wp_ret_of (inserting_stable hp) hstart
      fun m' _ hm' => ?_⟩
    exact insertLoop_wp hp hG hnew.1 hnew.2.1 H.retries true false m' hm'
  · simp only [if_neg hnew]
    exact ⟨.stay, trivial⟩

end Insert

end ShmPcc.ClevelHash
