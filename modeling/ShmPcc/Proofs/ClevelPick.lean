import ShmPcc.Proofs.ClevelRest

/-!
# The vacancy that `find` picks

`find` prefers some slots of a key to others: those of higher levels, in a level those
further to the front of their bucket, and the left bucket where this does not decide. Slots
that nothing is taken out of only fill up while one chain is published, so a pass of `find`
over it ends with a vacancy such that everything it would have preferred is full, and stays
so.

That is why two inserts of one key do not both succeed on one published chain. The first one
puts its word into a slot; everything it would have preferred is full. If the second one has
not come to this slot yet, it is going to find the key there. If it has, the slot was empty,
so its own vacancy is this slot or one it prefers, and is full by now. `Scan` is that
argument as an assertion of a thread inside `find`, and `KeyStep` is what it relies on.
-/

namespace ShmPcc.ClevelHash

open Prog

variable {K T : Type}

/-! ## The order of the slots of a key -/

/-- `find` prefers slot `s` to slot `p`. -/
def Table.Before (H : Table K) (k : K) (s p : Slot) : Prop :=
  p.level < s.level ∨ s.level = p.level ∧ (s.slot < p.slot ∨
    s.slot = p.slot ∧ s.bucket = H.fIdx k s.level ∧ p.bucket ≠ H.fIdx k s.level)

section Order

variable {H : Table K} {k : K} {s p q : Slot}

theorem Table.Before.trans (h : H.Before k s p) (h' : H.Before k p q) : H.Before k s q := by
  rcases h with h | ⟨hl, h⟩
  · refine .inl ?_
    rcases h' with h' | ⟨hl', _⟩ <;> omega
  · rcases h' with h' | ⟨hl', h'⟩
    · exact .inl (by omega)
    · refine .inr ⟨hl.trans hl', ?_⟩
      rcases h with h | ⟨hs, hf, hn⟩
      · rcases h' with h' | ⟨hs', _⟩ <;> exact .inl (by omega)
      · rcases h' with h' | ⟨_, hf', _⟩
        · exact .inl (by omega)
        · rw [hl] at hn
          exact absurd hf' hn

theorem Table.before_irrefl : ¬ H.Before k s s := by
  intro h
  rcases h with h | ⟨_, h | ⟨_, hf, hn⟩⟩
  · omega
  · omega
  · exact hn hf

theorem Table.before_total (hs : H.IsSlot k s) (hp : H.IsSlot k p) :
    s = p ∨ H.Before k s p ∨ H.Before k p s := by
  obtain ⟨sl, sb, si⟩ := s
  obtain ⟨pl, pb, pi⟩ := p
  rcases Nat.lt_trichotomy sl pl with hl | rfl | hl
  · exact .inr (.inr (.inl hl))
  · rcases Nat.lt_trichotomy si pi with hi | rfl | hi
    · exact .inr (.inl (.inr ⟨rfl, .inl hi⟩))
    · by_cases hb : sb = pb
      · rw [hb]
        exact .inl rfl
      · by_cases hf : sb = H.fIdx k sl
        · exact .inr (.inl (.inr ⟨rfl, .inr ⟨rfl, hf, fun h => hb (hf.trans h.symm)⟩⟩))
        · have hpf : pb = H.fIdx k sl := by
            rcases hp.1 with h | h
            · exact h
            · exact absurd ((hs.1.resolve_left hf).trans h.symm) hb
          exact .inr (.inr (.inr ⟨rfl, .inr ⟨rfl, hpf, hf⟩⟩))
    · exact .inr (.inr (.inr ⟨rfl, .inl hi⟩))
  · exact .inr (.inl (.inl hl))

end Order

/-! ## One access and the words of a key -/

/-- The key is in no slot of a level that is left. -/
def Mem.Lacks (m : Mem K T) (k : K) : Prop := ∀ q w, m.cur.lastLevel ≤ q.level → ¬ m.At k q w

/-- The key is in a safe slot, as the word `w`. -/
def Mem.KeepsAs (m : Mem K T) (k : K) (w : Word) : Prop := ∃ p, m.Safe p ∧ m.At k p w

/-- The key comes into the table, in slot `p`. -/
structure First (H : Table K) (k : K) (m m' : Mem K T) (p : Slot) : Prop where
  lacks : m.Lacks k
  empty : m.slots p = 0
  firm : m.cur.Firm p
  best : ∀ s, H.IsSlot k s → s.level ≤ m.cur.firstLevel → H.Before k s p → m.slots s ≠ 0
  safe : m'.Safe p
  here : ∃ w, m'.At k p w
  only : ∀ q w, m'.At k q w → m'.cur.lastLevel ≤ q.level → q = p

/-- What an access does to the words of the key and to the vacancies. -/
structure KeyStep (H : Table K) (k : K) (m m' : Mem K T) : Prop where
  kept : ∀ p w, m.Safe p → m.At k p w → ∃ q, m'.Safe q ∧ m'.At k q w ∧ (q = p ∨ p.level < q.level)
  full : ∀ q, m.cur.Firm q → m.slots q ≠ 0 → m'.slots q ≠ 0
  new : (∀ q w, m'.cur.lastLevel ≤ q.level → m'.At k q w →
    ∃ p, m.cur.lastLevel ≤ p.level ∧ m.At k p w) ∨ ∃ p, First H k m m' p

/-- The key is in the table at most once, not counting copies. -/
structure OneKey (H : Table K) (k : K) (m : Mem K T) : Prop where
  ruled : Ruled H m
  held : m.Lacks k ∨ m.Keeps k
  same : ∀ p q w w', m.cur.lastLevel ≤ p.level → m.cur.lastLevel ≤ q.level →
    m.At k p w → m.At k q w' → w = w'

structure KeyMove (H : Table K) (k : K) (t : Nat) (m m' : Mem K T) : Prop where
  ruling : Ruling H t m m'
  key : KeyStep H k m m'

section Steps

variable {H : Table K} {k : K} {t u : Nat} {m m' : Mem K T} {w : Word}

theorem keyMove_refl (t : Nat) (m : Mem K T) : KeyMove H k t m m :=
  ⟨ruling_refl t m, fun p _ hs ha => ⟨p, hs, ha, .inl rfl⟩, fun _ _ h => h,
    .inl fun q _ hq ha => ⟨q, hq, ha⟩⟩

theorem KeyStep.keepsAs (h : KeyStep H k m m') (hk : m.KeepsAs k w) : m'.KeepsAs k w := by
  obtain ⟨p, hs, ha⟩ := hk
  obtain ⟨q, hs', ha', _⟩ := h.kept p w hs ha
  exact ⟨q, hs', ha'⟩

theorem KeyStep.keeps (h : KeyStep H k m m') (hk : m.Keeps k) : m'.Keeps k := by
  obtain ⟨p, w, hs, ha⟩ := hk
  obtain ⟨q, hs', ha', _⟩ := h.kept p w hs ha
  exact ⟨q, w, hs', ha'⟩

theorem Mem.Lacks.not_keeps (h : m.Lacks k) : ¬ m.Keeps k := by
  intro hk
  obtain ⟨p, w, hs, ha⟩ := hk
  exact h p w hs.1 ha

theorem KeyMove.inv (h : KeyMove H k t m m') (hi : OneKey H k m) : OneKey H k m' := by
  refine ⟨h.ruling.inv hi.ruled, ?_, ?_⟩
  · rcases hi.held with hl | hk
    · rcases h.key.new with hold | ⟨p, hp⟩
      · refine .inl fun q w hq ha => ?_
        obtain ⟨p, hlp, hap⟩ := hold q w hq ha
        exact hl p w hlp hap
      · obtain ⟨w, hw⟩ := hp.here
        exact .inr ⟨p, w, hp.safe, hw⟩
    · exact .inr (h.key.keeps hk)
  · intro p q w w' hp hq hap haq
    rcases h.key.new with hold | ⟨s, hs⟩
    · obtain ⟨p₀, hlp, hap₀⟩ := hold p w hp hap
      obtain ⟨q₀, hlq, haq₀⟩ := hold q w' hq haq
      exact hi.same p₀ q₀ w w' hlp hlq hap₀ haq₀
    · obtain rfl := hs.only p w hap hp
      obtain rfl := hs.only q w' haq hq
      exact hap.1.symm.trans haq.1

/-- The thread updates and erases nothing. -/
def Mem.Gentle (m : Mem K T) (t : Nat) : Prop := ∀ op, (t, op) ∈ m.ops → op.exclusive = false

theorem Move.own_ops (h : Move H u m m') (hu : u ≠ t) {op : Op K T} (hop : (t, op) ∈ m'.ops) :
    (t, op) ∈ m.ops := by
  cases h with
  | enter op' calls hidle hfree hcall hrest =>
    rcases List.mem_cons.mp hop with heq | hop
    · exact absurd (congrArg Prod.fst heq).symm hu
    · exact hop
  | leave hh => exact List.mem_of_mem_filter hop
  | _ => exact hop

theorem Move.full (h : Move H t m m') (hr : Resting m) (hg : m.Gentle t) {q : Slot}
    (hq : m.cur.Firm q) (hne : m.slots q ≠ 0) : m'.slots q ≠ 0 := by
  rcases h.change q with hs | ⟨op, k, hop, _, hwas, _⟩ | ⟨_, _, _, _, _, hwas, _⟩ | ⟨w, dst, _, hh, hp, _⟩
  · rw [hs]
    exact hne
  · rcases hwas with hz | ⟨hx, _⟩
    · exact absurd hz hne
    · rw [hg op hop] at hx
      cases hx
  · exact absurd hwas hne
  · -- the rehasher clears a slot of the bottom level, and not where it rests
    rcases hq with hlt | hset
    · rw [hp] at hlt
      exact absurd hlt (Nat.lt_irrefl _)
    · have := hr.free hset
      rw [hh] at this
      cases this

theorem Move.keyStep (h : Move H t m m') (hp : 2 ≤ H.hashpower) (hi : Ruled H m)
    (hf : m.Foreign k t) (hg : m.Gentle t) : KeyStep H k m m' where
  kept := fun _ _ hs ha => h.at_safe hi.inv hp hf hs ha
  full := fun _ hq hne => h.full hi.resting hg hq hne
  new := by
    refine .inl fun q w hq ha => ?_
    have := h.later.last
    rcases h.at_origin hi.inv hf ha with ha | ⟨ha, _⟩
    · exact ⟨q, by omega, ha⟩
    · exact ⟨m.src, Nat.le_refl _, ha⟩

theorem Move.keyStep_still (h : Move H t m m') (hi : Ruled H m) (hs : m'.slots = m.slots)
    (hsrc : m'.src = m.src) (hh : m'.hold = m.hold) : KeyStep H k m m' where
  kept := by
    intro p w hsafe ha
    obtain ⟨hl, hb, hc⟩ := Slot.mk.inj hsrc
    refine ⟨p, ?_, h.at_same hi.inv ha (by rw [hs]), .inl rfl⟩
    simp only [Mem.Safe, hl, hb, hc, hh]
    exact hsafe
  full := fun q _ hne => by rw [hs]; exact hne
  new := by
    refine .inl fun q w hq ha => ⟨q, ?_, h.at_before hi.inv ha (by rw [hs])⟩
    rw [← show m'.cur.lastLevel = m.cur.lastLevel from congrArg Slot.level hsrc]
    exact hq

end Steps

/-! ## A pass of `find` -/

/-- The vacancy and everything preferred to it is full. -/
def Spoiled (H : Table K) (k : K) (mt : Meta) (e : Slot) (m : Mem K T) : Prop :=
  ∀ s, H.IsSlot k s → s.level ≤ mt.firstLevel → mt.Firm s → s = e ∨ H.Before k s e → m.slots s ≠ 0

/-- A pass over the chain `mt`, with the slots `U` still to come and the vacancy of `f`.
The slots `X` were found full, and the word `pend` is being looked at. -/
structure Scan (H : Table K) (k : K) (mt : Meta) (U X : Slot → Prop) (f : Find)
    (pend : Option Word) (m : Mem K T) : Prop where
  seen : ∀ s, H.IsSlot k s → mt.lastLevel ≤ s.level → s.level ≤ mt.firstLevel → ¬ U s → mt.Firm s →
    (∀ e, f.e = some e → H.Before k s e) → m.slots s ≠ 0
  known : ∀ s, X s → mt.Firm s → m.slots s ≠ 0
  fate : m.Lacks k ∨ (∃ p w, U p ∧ m.Safe p ∧ m.At k p w) ∨ (∃ w ∈ pend, m.KeepsAs k w) ∨
    ∃ e, f.e = some e ∧ Spoiled H k mt e m

/-- As long as the chain is the published one. -/
structure Scanning (H : Table K) (k : K) (ptr : Nat) (mt : Meta) (U X : Slot → Prop) (f : Find)
    (pend : Option Word) (m : Mem K T) : Prop where
  snap : Snap ptr mt m
  scan : m.metaPtr = ptr → Scan H k mt U X f pend m

section Scans

variable {H : Table K} {k : K} {t u : Nat} {m m' : Mem K T} {ptr : Nat} {mt : Meta}
  {U U' X X' : Slot → Prop} {f : Find} {pend : Option Word}

theorem Spoiled.move {e : Slot} (h : Spoiled H k mt e m) (hm : KeyStep H k m m') (hcur : m.cur = mt) :
    Spoiled H k mt e m' :=
  fun s hs hl hf hse => hm.full s (by rw [hcur]; exact hf) (h s hs hl hf hse)

theorem Scan.spoiled {p : Slot} (h : Scan H k mt U X f pend m) (hp : First H k m m' p)
    (hm : KeyStep H k m m') (hcur : m.cur = mt) (hslot : H.IsSlot k p) (hU : ¬ U p)
    (hlive : mt.lastLevel ≤ p.level) (htop : p.level ≤ mt.firstLevel)
    (hf : ∀ e, f.e = some e → H.IsSlot k e) :
    ∃ e, f.e = some e ∧ Spoiled H k mt e m' := by
  have hfirm : mt.Firm p := hcur ▸ hp.firm
  have hnot : ¬ ∀ e, f.e = some e → H.Before k p e :=
    fun hall => h.seen p hslot hlive htop hU hfirm hall hp.empty
  simp only [not_forall] at hnot
  obtain ⟨e, he, hnot⟩ := hnot
  refine ⟨e, he, fun s hs hl hfs hse => ?_⟩
  -- the vacancy is this slot or preferred to it, and so is what is preferred to the vacancy
  have hsp : s = p ∨ H.Before k s p := by
    rcases Table.before_total hslot (hf e he) with rfl | hpe | hep
    · exact hse
    · exact absurd hpe hnot
    · rcases hse with rfl | hse
      · exact .inr hep
      · exact .inr (hse.trans hep)
  rcases hsp with rfl | hsp
  · obtain ⟨w, hw⟩ := hp.here
    exact hw.ne_zero
  · refine hm.full s (by rw [hcur]; exact hfs) (hp.best s hs ?_ hsp)
    rw [hcur]
    exact hl

theorem Scan.move (h : Scan H k mt U X f pend m) (hi : OneKey H k m) (hm : KeyMove H k u m m')
    (hcur : m.cur = mt) (hcur' : m'.cur = mt) (hU : ∀ p q, U p → p.level < q.level → U q)
    (hf : ∀ e, f.e = some e → H.IsSlot k e) : Scan H k mt U X f pend m' := by
  have hfull : ∀ s, mt.Firm s → m.slots s ≠ 0 → m'.slots s ≠ 0 :=
    fun s hs => hm.key.full s (by rw [hcur]; exact hs)
  refine ⟨fun s hs hlo hl hu hfs he => hfull s hfs (h.seen s hs hlo hl hu hfs he),
    fun s hx hfs => hfull s hfs (h.known s hx hfs), ?_⟩
  rcases h.fate with hl | ⟨p, w, hu, hs, ha⟩ | ⟨w, hw, hk⟩ | ⟨e, he, hsp⟩
  · rcases hm.key.new with hold | ⟨p, hp⟩
    · refine .inl fun q w hq ha => ?_
      obtain ⟨p, hlp, hap⟩ := hold q w hq ha
      exact hl p w hlp hap
    · obtain ⟨w, hw⟩ := hp.here
      have hi' := (hm.inv hi).ruled.inv
      by_cases hu : U p
      · exact .inr (.inl ⟨p, w, hu, hp.safe, hw⟩)
      · have hlive := hp.safe.1
        have htop := hi'.below p hw.ne_zero
        rw [hcur'] at hlive htop
        exact .inr (.inr (.inr (h.spoiled hp hm.key hcur (hw.isSlot hi') hu hlive htop hf)))
  · obtain ⟨q, hs', ha', hq⟩ := hm.key.kept p w hs ha
    refine .inr (.inl ⟨q, w, ?_, hs', ha'⟩)
    rcases hq with rfl | hq
    · exact hu
    · exact hU p q hu hq
  · exact .inr (.inr (.inl ⟨w, hw, hm.key.keepsAs hk⟩))
  · exact .inr (.inr (.inr ⟨e, he, hsp.move hm.key hcur⟩))

theorem Scanning.move (h : Scanning H k ptr mt U X f pend m) (hi : OneKey H k m)
    (hm : KeyMove H k u m m') (hU : ∀ p q, U p → p.level < q.level → U q)
    (hf : ∀ e, f.e = some e → H.IsSlot k e) : Scanning H k ptr mt U X f pend m' := by
  have hsnap := h.snap.later hm.ruling.move.later
  refine ⟨hsnap, fun hptr' => ?_⟩
  have hptr : m.metaPtr = ptr := by
    have := h.snap.1
    have := hm.ruling.move.later.ptr
    omega
  exact (h.scan hptr).move hi hm (h.snap.cur hptr) (hsnap.cur hptr') hU hf

theorem Scan.reshape (h : Scan H k mt U X f pend m) (hi : Inv H m)
    (hU : ∀ s, H.IsSlot k s → (U s ↔ U' s)) (hX : ∀ s, X' s → X s) : Scan H k mt U' X' f pend m := by
  refine ⟨fun s hs hlo hl hu => h.seen s hs hlo hl fun hn => hu ((hU s hs).mp hn),
    fun s hs => h.known s (hX s hs), ?_⟩
  rcases h.fate with hl | ⟨p, w, hu, hs, ha⟩ | hpend | hsp
  · exact .inl hl
  · exact .inr (.inl ⟨p, w, (hU p (ha.isSlot hi)).mp hu, hs, ha⟩)
  · exact .inr (.inr (.inl hpend))
  · exact .inr (.inr (.inr hsp))

theorem Scanning.reshape (h : Scanning H k ptr mt U X f pend m) (hi : Inv H m)
    (hU : ∀ s, H.IsSlot k s → (U s ↔ U' s)) (hX : ∀ s, X' s → X s) :
    Scanning H k ptr mt U' X' f pend m :=
  ⟨h.snap, fun hptr => (h.scan hptr).reshape hi hU hX⟩

/-- The context of a thread inside `find`. -/
def scanCtx (H : Table K) (k : K) (ok : Site → Mem K T → Prop) (t : Nat) : Ctx Site (Mem K T) :=
  (Ctx.pool (OneKey H k) (KeyMove H k) keyMove_refl ok t).quiet

variable {ok : Site → Mem K T → Prop} {li : Nat} {P : Slot → Prop}

theorem scanning_stable (hU : ∀ p q, U p → p.level < q.level → U q)
    (hf : ∀ e, f.e = some e → H.IsSlot k e) :
    (scanCtx H k ok t).Stable (Scanning H k ptr mt U X f pend : Mem K T → Prop) := by
  intro m m' hr h
  refine Others.kept ?_ hr h
  intro u a b _ hi _ hm h
  exact h.move hi hm hU hf

/-- The slots of bucket `b` in front of slot `j`, unless one of them was found empty. -/
def Behind (li b j : Nat) (foundEmpty : Bool) (s : Slot) : Prop :=
  foundEmpty = false ∧ s.level = li ∧ s.bucket = b ∧ s.slot < j

variable {Q : Slot → Prop} {b j : Nat}

theorem Scan.skip (h : Scan H k mt (Ahead li (FromSlot Q b j)) X f none m)
    (hseen : (∀ e, f.e = some e → H.Before k ⟨li, b, j⟩ e) → m.slots ⟨li, b, j⟩ ≠ 0)
    (hX : ∀ s, X' s → mt.Firm s → m.slots s ≠ 0)
    (hat : ∀ w, m.Safe ⟨li, b, j⟩ → m.At k ⟨li, b, j⟩ w → w ∈ pend) :
    Scan H k mt (Ahead li (FromSlot Q b (j + 1))) X' f pend m := by
  refine ⟨fun s hs hlo hl hu hfs he => ?_, hX, ?_⟩
  · by_cases hsq : s = ⟨li, b, j⟩
    · subst hsq
      exact hseen he
    · exact h.seen s hs hlo hl (fun ha => hu (ha.next.resolve_left hsq)) hfs he
  · rcases h.fate with hl | ⟨p, w, hu, hs, ha⟩ | ⟨w, hw, _⟩ | hsp
    · exact .inl hl
    · rcases hu.next with rfl | hu
      · exact .inr (.inr (.inl ⟨w, hat w hs ha, _, hs, ha⟩))
      · exact .inr (.inl ⟨p, w, hu, hs, ha⟩)
    · cases hw
    · exact .inr (.inr (.inr hsp))

/-- An empty slot becomes the vacancy: it is preferred to the one before. -/
theorem Scan.take {f' : Find} (h : Scan H k mt (Ahead li (FromSlot Q b j)) (Behind li b j false) f none m)
    (hz : m.slots ⟨li, b, j⟩ = 0) (hlow : ∀ e, f.e = some e → e.level ≤ li)
    (hover : ∀ e, f.e = some e → e.level = li → j < e.slot) (he' : f'.e = some ⟨li, b, j⟩) :
    Scan H k mt (Ahead li (FromSlot Q b (j + 1))) (Behind li b (j + 1) true) f' none m := by
  have hbefore : ∀ s : Slot, li ≤ s.level → s.slot ≤ j → ∀ e, f.e = some e → H.Before k s e := by
    intro s hl hj e he
    rcases Nat.lt_or_ge e.level s.level with hlt | hge
    · exact .inl hlt
    · have := hlow e he
      have := hover e he (by omega)
      exact .inr ⟨by omega, .inl (by omega)⟩
  refine ⟨fun s hs hlo hl hu hfs he => ?_, fun s hx => absurd hx.1 (by decide), ?_⟩
  · have hsq : H.Before k s ⟨li, b, j⟩ := he _ he'
    have hne : s ≠ ⟨li, b, j⟩ := by
      rintro rfl
      exact Table.before_irrefl hsq
    have hu' : ¬ Ahead li (FromSlot Q b j) s := fun ha => hu (ha.next.resolve_left hne)
    rcases hsq with hlt | ⟨hlv, hsj⟩
    · exact absurd (.inl hlt) hu'
    · by_cases hsb : s.bucket = b
      · refine h.known s ⟨rfl, hlv, hsb, ?_⟩ hfs
        rcases hsj with hsj | ⟨_, hf, hnf⟩
        · exact hsj
        · exact absurd (hsb.symm.trans hf) hnf
      · refine h.seen s hs hlo hl hu' hfs (hbefore s (Nat.le_of_eq hlv.symm) ?_)
        rcases hsj with hsj | ⟨hsj, _⟩
        · exact Nat.le_of_lt hsj
        · exact Nat.le_of_eq hsj
  · rcases h.fate with hl | ⟨p, w, hu, hs, ha⟩ | ⟨w, hw, _⟩ | ⟨e, he, hsp⟩
    · exact .inl hl
    · rcases hu.next with rfl | hu
      · exact absurd hz ha.ne_zero
      · exact .inr (.inl ⟨p, w, hu, hs, ha⟩)
    · cases hw
    · refine .inr (.inr (.inr ⟨_, he', fun s hs hl hfs hsq => ?_⟩))
      have hqe : H.Before k ⟨li, b, j⟩ e := hbefore _ (Nat.le_refl _) (Nat.le_refl _) e he
      rcases hsq with rfl | hsq
      · exact hsp _ hs hl hfs (.inr hqe)
      · exact hsp s hs hl hfs (.inr (hsq.trans hqe))

theorem Scan.other {w : Word} (h : Scan H k mt U X f (some w) m) (hw : ¬ m.KeepsAs k w) :
    Scan H k mt U X f none m := by
  refine ⟨h.seen, h.known, ?_⟩
  rcases h.fate with hl | hu | ⟨w', hw', hk⟩ | hsp
  · exact .inl hl
  · exact .inr (.inl hu)
  · injection hw' with hw'
    subst hw'
    exact absurd hk hw
  · exact .inr (.inr (.inr hsp))

end Scans

/-! ## `find` of an insert -/

/-- What `find` knows of a vacancy. -/
structure Picked (H : Table K) (k : K) (mt : Meta) (f : Find) : Prop where
  quiet : f.result.isFound = false
  vacant : f.result.isVacancy = true → ∃ e, f.e = some e
  oldE : f.oldE = 0
  slot : ∀ e, f.e = some e → H.IsSlot k e
  level : ∀ e, f.e = some e → e.level = mt.lastLevel + f.levelNum
  slotIdx : ∀ e, f.e = some e → f.slotIdx = e.slot
  left : ∀ e, f.e = some e → (f.result = .vacancyInLeft ↔ e.bucket = H.fIdx k e.level)

/-- After the bucket on `side` of level `li`. -/
structure Through (H : Table K) (k : K) (mt : Meta) (side : Side) (li : Nat) (f : Find) : Prop
    extends Picked H k mt f where
  low : ∀ e, f.e = some e → e.level ≤ li
  first : side = .left → ∀ e, f.e = some e → e.level = li → e.bucket = H.fIdx k li

/-- In front of slot `j` of that bucket. -/
structure InBucket (H : Table K) (k : K) (mt : Meta) (side : Side) (li j : Nat) (foundEmpty : Bool)
    (f : Find) : Prop extends Through H k mt side li f where
  found : foundEmpty = true → ∃ e, f.e = some e ∧ e.level = li ∧ e.slot < j
  fresh : foundEmpty = false → ∀ e, f.e = some e → e.level = li →
    side = .right ∧ e.bucket = H.fIdx k li

section Find

variable {H : Table K} {k : K} {t : Nat} {m s : Mem K T} {ptr : Nat} {mt : Meta} {f : Find}
  {ok : Site → Mem K T → Prop} {li b j i : Nat} {Q : Slot → Prop} {side : Side} {foundEmpty : Bool}

theorem picked_start (last : Option Slot) : Picked H k mt { lastBucketEntry := last } :=
  ⟨rfl, nofun, rfl, nofun, nofun, nofun, nofun⟩

theorem InBucket.later (h : InBucket H k mt side li j foundEmpty f) :
    InBucket H k mt side li (j + 1) foundEmpty f :=
  { h with
    found := fun hf => by
      obtain ⟨e, he, hl, hj⟩ := h.found hf
      exact ⟨e, he, hl, Nat.lt_succ_of_lt hj⟩ }

theorem InBucket.keep (h : InBucket H k mt side li j foundEmpty f) (hli : li = mt.lastLevel + i)
    (hres : f.result = .vacancyInLeft) (hi : f.levelNum = i) (hj : f.slotIdx ≤ j) :
    InBucket H k mt side li (j + 1) true f := by
  refine { h with found := fun _ => ?_, fresh := nofun }
  obtain ⟨e, he⟩ := h.vacant (by rw [hres]; rfl)
  refine ⟨e, he, ?_, ?_⟩
  · rw [h.level e he, hi, hli]
  · have := h.slotIdx e he
    omega

/-- The slot is not preferred to a vacancy further to the front of the level, or to one of
the left bucket. -/
theorem InBucket.not_before (h : InBucket H k mt side li (j + 1) true f)
    (hb : ∀ e, f.e = some e → e.slot = j → b ≠ H.fIdx k li) :
    ¬ ∀ e, f.e = some e → H.Before k ⟨li, b, j⟩ e := by
  intro hall
  obtain ⟨e, he, hl, hj⟩ := h.found rfl
  rcases hall e he with hlt | ⟨_, hlt | ⟨heq, hf, _⟩⟩
  · dsimp only at hlt
    omega
  · dsimp only at hlt
    omega
  · exact hb e he heq.symm hf

theorem InBucket.take (h : InBucket H k mt side li j false f) (hli : li = mt.lastLevel + i)
    (hslot : H.IsSlot k ⟨li, b, j⟩) (hside : side = .left ↔ b = H.fIdx k li) {last : Option Slot} :
    InBucket H k mt side li (j + 1) true { f with
      result := .vacancy side, oldE := 0, e := some ⟨li, b, j⟩, lastBucketEntry := last,
      levelNum := i, idx := b, slotIdx := j } where
  quiet := by cases side <;> rfl
  vacant := fun _ => ⟨_, rfl⟩
  oldE := rfl
  slot := by
    intro e he
    cases he
    exact hslot
  level := by
    intro e he
    cases he
    exact hli
  slotIdx := by
    intro e he
    cases he
    rfl
  left := by
    intro e he
    cases he
    rw [← hside]
    cases side <;> simp [FCode.vacancy]
  low := by
    intro e he
    cases he
    exact Nat.le_refl _
  first := by
    intro hl e he _
    cases he
    exact hside.mp hl
  found := fun _ => ⟨_, rfl, rfl, Nat.lt_succ_self _⟩
  fresh := nofun

/-- After a slot of the bucket `b`. -/
def Went (H : Table K) (k : K) (ptr : Nat) (mt : Meta) (side : Side) (li b j : Nat)
    (Q : Slot → Prop) (v : Visit) (m : Mem K T) : Prop :=
  match v with
  | .next f e => InBucket H k mt side li j e f ∧
      Scanning H k ptr mt (Ahead li (FromSlot Q b j)) (Behind li b j e) f none m
  | .done f => f.result.isFound = true
  | .retry _ => False

theorem went_stable {v : Visit} :
    (scanCtx H k ok t).Stable (Went H k ptr mt side li b j Q v : Mem K T → Prop) := by
  intro m m' hr h
  cases v with
  | next f e => exact ⟨h.1, scanning_stable Ahead.above h.1.slot m m' hr h.2⟩
  | done f => exact h
  | retry f => exact h

theorem behind_full (hs : Scan H k mt U (Behind li b j foundEmpty) f none m)
    (hne : m.slots ⟨li, b, j⟩ ≠ 0) (s : Slot) (hb : Behind li b (j + 1) foundEmpty s) (hf : mt.Firm s) :
    m.slots s ≠ 0 := by
  obtain ⟨he, hl, hb, hj⟩ := hb
  rcases Nat.lt_or_ge s.slot j with hlt | hge
  · exact hs.known s ⟨he, hl, hb, hlt⟩ hf
  · have hsq : s = ⟨li, b, j⟩ := by
      obtain ⟨sl, sb, sj⟩ := s
      dsimp only at hl hb hj hge
      rw [hl, hb, show sj = j by omega]
    rw [hsq]
    exact hne

variable [DecidableEq K]

variable {levels : List Nat}

theorem visitSlot_scan {track : Bool} (hli : li = mt.lastLevel + i) (hslot : H.IsSlot k ⟨li, b, j⟩)
    (hside : side = .left ↔ b = H.fIdx k li)
    (hs : Went H k ptr mt side li b j Q (.next f foundEmpty) s) :
    wp (scanCtx H k ok t) (Went H k ptr mt side li b (j + 1) Q)
      (visitSlot H t ⟨k, false, track⟩ levels side i ⟨li, b, j⟩ f foundEmpty) s := by
  have hret : ∀ v m, Went H k ptr mt side li b (j + 1) Q v m →
      wp (scanCtx H k ok t) (Went H k ptr mt side li b (j + 1) Q) (pure v) m :=
    fun v m hm => wp_ret_of went_stable hm fun _ _ h => h
  refine wp_read_of went_stable hs fun m hi hm => ?_
  obtain ⟨hb, hm⟩ := hm
  split
  · next hz =>
    have hempty : m.slots ⟨li, b, j⟩ = 0 := hi.ruled.inv.placed.addr_eq_zero.mp hz
    have hnot : ∀ w, m.Safe ⟨li, b, j⟩ → m.At k ⟨li, b, j⟩ w → w ∈ (none : Option Word) :=
      fun w _ ha => absurd hempty ha.ne_zero
    split
    · next hcond =>
      obtain ⟨_, rfl⟩ := hcond
      split
      · next hkeep =>
        obtain ⟨hright, hres, hnum, hidx⟩ := hkeep
        have hb' := hb.keep hli hres hnum hidx
        refine hret _ m ⟨hb', hm.snap, fun hptr => ?_⟩
        refine (hm.scan hptr).skip (fun hall => absurd hall (hb'.not_before ?_))
          (fun s hx => absurd hx.1 (by decide)) hnot
        intro _ _ _ hf
        rw [hside.mpr hf] at hright
        cases hright
      · next hkeep =>
        rw [hempty]
        refine hret _ m ⟨hb.take hli hslot hside, hm.snap, fun hptr => ?_⟩
        refine (hm.scan hptr).take hempty hb.low (fun e he hl => ?_) rfl
        obtain ⟨hright, hf⟩ := hb.fresh rfl e he hl
        have hres : f.result = .vacancyInLeft := (hb.left e he).mpr (by rw [hl]; exact hf)
        have hnum : f.levelNum = i := by
          have := hb.level e he
          omega
        have := hb.slotIdx e he
        have : ¬ f.slotIdx ≤ j := fun h => hkeep ⟨hright, hres, hnum, h⟩
        omega
    · next hcond =>
      have hfe : foundEmpty = true := by
        cases foundEmpty with
        | true => rfl
        | false => exact absurd ⟨hb.quiet, rfl⟩ hcond
      subst hfe
      refine hret _ m ⟨hb.later, hm.snap, fun hptr => ?_⟩
      refine (hm.scan hptr).skip (fun hall => absurd hall (hb.later.not_before ?_))
        (fun s hx => absurd hx.1 (by decide)) hnot
      intro e he hj
      obtain ⟨e', he', _, hlt⟩ := hb.found rfl
      cases he.symm.trans he'
      omega
  · next hne =>
    have hfull : m.slots ⟨li, b, j⟩ ≠ 0 := fun hz => hne (by rw [hz, addr_zero])
    split
    · next hpar =>
      refine hret _ m ⟨hb.later, hm.snap, fun hptr => ?_⟩
      refine (hm.scan hptr).skip (fun _ => hfull) (behind_full (hm.scan hptr) hfull) ?_
      intro w _ ha
      obtain ⟨_, v, hv⟩ := ha
      exact absurd hv (entryAt_ne_of_mismatch hi.ruled.inv.placed (fun h => hpar h.1) v)
    · have hlook : Scanning H k ptr mt (Ahead li (FromSlot Q b (j + 1))) (Behind li b (j + 1) foundEmpty)
          f (some (m.slots ⟨li, b, j⟩)) m := by
        refine ⟨hm.snap, fun hptr => ?_⟩
        refine (hm.scan hptr).skip (fun _ => hfull) (behind_full (hm.scan hptr) hfull) ?_
        intro w _ ha
        rw [ha.1]
        exact rfl
      refine wp_loadEntry (scanning_stable Ahead.above hb.slot) hlook
        fun m' kv hi' hm' he => ?_
      split
      · next hk =>
        refine hret _ m' ⟨hb.later, hm'.snap, fun hptr => (hm'.scan hptr).other ?_⟩
        intro hkeep
        obtain ⟨p, _, ha⟩ := hkeep
        obtain ⟨v, hv⟩ := ha.entry
        rw [he] at hv
        injection hv with hv
        exact hk (congrArg Prod.fst hv)
      · exact hret _ m' (by cases side <;> rfl)

/-- After a bucket or a level. -/
def Gone (H : Table K) (k : K) (ptr : Nat) (mt : Meta) (side : Side) (li : Nat) (P : Slot → Prop)
    (v : Visit) (m : Mem K T) : Prop :=
  match v with
  | .next f _ => Through H k mt side li f ∧
      Scanning H k ptr mt (Ahead li P) (fun _ => False) f none m
  | .done f => f.result.isFound = true
  | .retry _ => False

variable {P : Slot → Prop}

omit [DecidableEq K] in
theorem gone_stable {v : Visit} :
    (scanCtx H k ok t).Stable (Gone H k ptr mt side li P v : Mem K T → Prop) := by
  intro m m' hr h
  cases v with
  | next f e => exact ⟨h.1, scanning_stable Ahead.above h.1.slot m m' hr h.2⟩
  | done f => exact h
  | retry f => exact h

theorem visitBucket_scan {track : Bool} (hli : li = mt.lastLevel + i) (hbucket : H.IsBucket k li b)
    (hside : side = .left ↔ b = H.fIdx k li) :
    ∀ n j f foundEmpty (s : Mem K T), j + n = assocNum →
    Went H k ptr mt side li b j Q (.next f foundEmpty) s →
    wp (scanCtx H k ok t) (Gone H k ptr mt side li (FromSlot Q b assocNum))
      (visitBucket H t ⟨k, false, track⟩ levels side i li b n j f foundEmpty) s := by
  intro n
  induction n with
  | zero =>
    intro j f foundEmpty s hj hs
    obtain rfl : j = assocNum := hj
    refine wp_ret_of went_stable hs fun m hi hm => ?_
    exact ⟨hm.1.toThrough, hm.2.reshape hi.ruled.inv (fun _ _ => Iff.rfl) nofun⟩
  | succ n ih =>
    intro j f foundEmpty s hj hs
    refine wp_bind (wp_mono ?_ (visitSlot_scan hli ⟨hbucket, show j < assocNum by omega⟩
      hside hs))
    intro v m _ hv
    cases v with
    | next f e => exact ih (j + 1) f e m (by omega) hv
    | done f =>
      exact wp_ret_of (gone_stable (v := .done f)) hv fun _ _ h => h
    | retry f => exact hv.elim

omit [DecidableEq K] in
theorem Scanning.enter (h : Scanning H k ptr mt (Ahead li P) (fun _ => False) f none m) (b : Nat) :
    Scanning H k ptr mt (Ahead li (FromSlot P b 0)) (Behind li b 0 false) f none m := by
  have hU : Ahead li (FromSlot P b 0) = Ahead li P := by
    funext s
    simp [Ahead, FromSlot]
  have hX : Behind li b 0 false = fun _ => False := by
    funext s
    simp [Behind]
  rw [hU, hX]
  exact h

/-- In front of level `li`. -/
def Below (H : Table K) (k : K) (ptr : Nat) (mt : Meta) (li : Nat) (v : Visit) (m : Mem K T) : Prop :=
  match v with
  | .next f _ => Picked H k mt f ∧ (∀ e, f.e = some e → e.level < li) ∧
      Scanning H k ptr mt (Ahead li fun _ => True) (fun _ => False) f none m
  | .done f => f.result.isFound = true
  | .retry _ => False

omit [DecidableEq K] in
theorem below_stable {v : Visit} :
    (scanCtx H k ok t).Stable (Below H k ptr mt li v : Mem K T → Prop) := by
  intro m m' hr h
  cases v with
  | next f e => exact ⟨h.1, h.2.1, scanning_stable Ahead.above h.1.slot m m' hr h.2.2⟩
  | done f => exact h
  | retry f => exact h

omit [DecidableEq K] in
theorem Below.left (h : Below H k ptr mt li (.next f foundEmpty) m) :
    Went H k ptr mt .left li (H.fIdx k li) 0 (fun _ => True) (.next f false) m := by
  obtain ⟨hf, hlow, hs⟩ := h
  have hno : ∀ e, f.e = some e → e.level ≠ li := fun e he => Nat.ne_of_lt (hlow e he)
  refine ⟨{ hf with
    low := fun e he => Nat.le_of_lt (hlow e he)
    first := fun _ e he hl => absurd hl (hno e he)
    found := nofun
    fresh := fun _ e he hl => absurd hl (hno e he) }, hs.enter _⟩

omit [DecidableEq K] in
theorem Gone.right (h : Gone H k ptr mt .left li P (.next f foundEmpty) m) :
    Went H k ptr mt .right li (H.sIdx k li) 0 P (.next f false) m := by
  obtain ⟨hf, hs⟩ := h
  refine ⟨{ hf with
    first := nofun
    found := nofun
    fresh := fun _ e he hl => ⟨rfl, hf.first rfl e he hl⟩ }, hs.enter _⟩

omit [DecidableEq K] in
theorem Gone.below (hi : Inv H m) (h : Gone H k ptr mt .right li
      (FromSlot (FromSlot (fun _ => True) (H.fIdx k li) assocNum) (H.sIdx k li) assocNum)
      (.next f foundEmpty) m) : Below H k ptr mt (li + 1) (.next f foundEmpty) m := by
  obtain ⟨hf, hs⟩ := h
  refine ⟨hf.toPicked, fun e he => Nat.lt_succ_of_le (hf.low e he), hs.reshape hi (fun s hs => ?_) nofun⟩
  obtain ⟨hb, hj⟩ := hs
  constructor
  · intro ha
    rcases ha with hl | ⟨hl, ⟨_, hfirst⟩, hsecond⟩
    · rcases Nat.lt_or_ge (li + 1) s.level with hlt | hge
      · exact .inl hlt
      · exact .inr ⟨by omega, trivial⟩
    · rw [hl] at hb
      rcases hb with hb | hb
      · exact absurd (hfirst hb) (Nat.not_le_of_lt hj)
      · exact absurd (hsecond hb) (Nat.not_le_of_lt hj)
  · intro ha
    left
    rcases ha with hl | ⟨hl, _⟩ <;> omega

/-- A pass over the levels from number `i` on, with `n` to go. -/
theorem visitLevels_scan (hp : 2 ≤ H.hashpower) {track : Bool} :
    ∀ n i f (s : Mem K T), Below H k ptr mt (mt.lastLevel + i) (.next f false) s →
    wp (scanCtx H k ok t) (Below H k ptr mt (mt.lastLevel + (i + n)))
      (visitLevels H t ⟨k, false, track⟩ levels (List.range' (mt.lastLevel + i) n) i f) s := by
  intro n
  induction n with
  | zero =>
    intro i f s hs
    exact wp_ret_of below_stable hs fun _ _ h => h
  | succ n ih =>
    intro i f s hs
    have hdone : ∀ f (m : Mem K T), f.result.isFound = true →
        wp (scanCtx H k ok t) (Below H k ptr mt (mt.lastLevel + (i + (n + 1))))
          (pure (.done f)) m :=
      fun f m hf => wp_ret fun _ _ _ => hf
    refine wp_bind (wp_mono ?_ (visitBucket_scan rfl (.inl rfl) (by simp) assocNum 0 f false s
      (Nat.zero_add _) hs.left))
    intro v m _ hv
    cases v with
    | done f => exact hdone f m hv
    | retry f => exact hv.elim
    | next f e =>
      have hside : Side.right = .left ↔ H.sIdx k (mt.lastLevel + i) = H.fIdx k (mt.lastLevel + i) := by
        simp [(Table.fIdx_ne_sIdx hp k (mt.lastLevel + i)).symm]
      refine wp_bind (wp_mono ?_ (visitBucket_scan rfl (.inr rfl) hside assocNum 0 f false m
        (Nat.zero_add _) (Gone.right hv)))
      intro v m hi hv
      cases v with
      | done f => exact hdone f m hv
      | retry f => exact hv.elim
      | next f e =>
        rw [show i + (n + 1) = i + 1 + n by omega]
        exact ih (i + 1) f m (Gone.below hi.ruled.inv hv)

omit [DecidableEq K] in
theorem Snap.below (hs : Snap ptr mt m) (hi : OneKey H k m) (last : Option Slot) :
    Below H k ptr mt (mt.lastLevel + 0) (.next { lastBucketEntry := last } false) m := by
  refine ⟨picked_start last, nofun, hs, fun hptr => ⟨fun s _ hlo _ hu _ _ => ?_, nofun, ?_⟩⟩
  · refine absurd ?_ hu
    rcases Nat.lt_or_ge mt.lastLevel s.level with hlt | hge
    · exact .inl hlt
    · exact .inr ⟨by omega, trivial⟩
  · rcases hi.held with hl | ⟨p, w, hsafe, ha⟩
    · exact .inl hl
    · refine .inr (.inl ⟨p, w, ?_, hsafe, ha⟩)
      have hlo := hsafe.1
      rw [hs.cur hptr] at hlo
      rcases Nat.lt_or_ge mt.lastLevel p.level with hlt | hge
      · exact .inl hlt
      · exact .inr ⟨by omega, trivial⟩

/-- What `find` returns without having found the key, after a pass over all of `mt`. -/
structure Surveyed (H : Table K) (k : K) (ptr : Nat) (mt : Meta) (f : Find) (m : Mem K T) : Prop where
  picked : Picked H k mt f
  top : ∀ e, f.e = some e → e.level ≤ mt.firstLevel
  scanning : Scanning H k ptr mt (fun _ => False) (fun _ => False) f none m

omit [DecidableEq K] in
theorem Surveyed.move {m' : Mem K T} {u : Nat} (h : Surveyed H k ptr mt f m) (hi : OneKey H k m)
    (hm : KeyMove H k u m m') : Surveyed H k ptr mt f m' :=
  ⟨h.picked, h.top, h.scanning.move hi hm (fun _ _ h _ => h) h.picked.slot⟩

omit [DecidableEq K] in
theorem Below.surveyed (h : Below H k ptr mt (mt.firstLevel + 1) (.next f foundEmpty) m)
    (hi : Inv H m) : Surveyed H k ptr mt f m := by
  obtain ⟨hf, hlow, hs⟩ := h
  refine ⟨hf, fun e he => Nat.le_of_lt_succ (hlow e he), hs.snap, fun hptr => ?_⟩
  have hscan := hs.scan hptr
  refine ⟨fun s hs hlo hl _ => hscan.seen s hs hlo hl ?_, nofun, ?_⟩
  · intro ha
    rcases ha with hlt | ⟨heq, _⟩ <;> omega
  · rcases hscan.fate with hl | ⟨p, w, hu, _, ha⟩ | hpend | hsp
    · exact .inl hl
    · have htop := hi.below p ha.ne_zero
      rw [hs.snap.cur hptr] at htop
      rcases hu with hlt | ⟨heq, _⟩ <;> omega
    · exact .inr (.inr (.inl hpend))
    · exact .inr (.inr (.inr hsp))

omit [DecidableEq K] in
/-- If the vacancy is still there and the chain still published, the key is not in the table
and everything preferred to the vacancy is full. -/
theorem Surveyed.vacancy {e : Slot} (h : Surveyed H k ptr mt f m) (he : f.e = some e)
    (hptr : m.metaPtr = ptr) (hz : m.slots e = 0) (hfirm : m.cur.Firm e) :
    m.Lacks k ∧ m.cur.lastLevel ≤ e.level ∧
      ∀ s, H.IsSlot k s → s.level ≤ m.cur.firstLevel → H.Before k s e → m.slots s ≠ 0 := by
  have hscan := h.scanning.scan hptr
  have hlevel := h.picked.level e he
  rw [h.scanning.snap.cur hptr] at hfirm ⊢
  refine ⟨?_, by omega, fun s hs hl hse => ?_⟩
  · rcases hscan.fate with hl | ⟨_, _, hu, _⟩ | ⟨_, hw, _⟩ | ⟨e', he', hsp⟩
    · exact hl
    · exact hu.elim
    · cases hw
    · cases he.symm.trans he'
      exact absurd hz (hsp e (h.picked.slot e he) (h.top e he) hfirm (.inl rfl))
  · have hle : e.level ≤ s.level := by
      rcases hse with hlt | ⟨heq, _⟩ <;> omega
    have hfs : mt.Firm s := hfirm.imp_left fun hlt => by omega
    refine hscan.seen s hs (by omega) hl (fun hu => hu) hfs fun e' he' => ?_
    cases he.symm.trans he'
    exact hse

end Find

end ShmPcc.ClevelHash
