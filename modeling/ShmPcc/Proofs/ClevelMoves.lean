import ShmPcc.Proofs.ClevelSeq

/-!
# What one access of a thread can do to the table

Threads run at the same time here. `Move H t m m'` lists everything that one
access of thread `t` does to the memory: what is published, which entry is
allocated or deleted, which word goes into or out of a slot, and how far the
rehasher gets. The invariant `Inv` follows from that list alone, and so does
what a thread may rely on for a key that the others leave alone: its item stays
where it is or is copied upwards before it is cleared, no other slot gets it,
and its entry is not touched.

Two operations clash if one of them updates or erases a key that the other one
is about; a thread may only start an operation that clashes with none running.
-/

namespace ShmPcc.ClevelHash

open Function

variable {K T : Type}

def Op.exclusive : Op K T → Bool
  | .update .. | .erase _ => true
  | .insert .. | .search _ | .resize => false

/-- The entry an operation allocates, and where. -/
def Op.created : Op K T → Option ((K × T) × Word)
  | .insert key value kv | .update key value kv => some ((key, value), kv)
  | .erase _ | .search _ | .resize => none

def Clash (op op' : Op K T) : Prop :=
  (op.exclusive = true ∨ op'.exclusive = true) ∧ op.target = op'.target

theorem Clash.symm {op op' : Op K T} (h : Clash op op') : Clash op' op := ⟨h.1.symm, h.2.symm⟩

theorem Op.target_of_exclusive {op : Op K T} (h : op.exclusive = true) :
    ∃ k, op.target = some k := by
  cases op with
  | update key value kv => exact ⟨key, rfl⟩
  | erase key => exact ⟨key, rfl⟩
  | insert key value kv => cases h
  | search key => cases h
  | resize => cases h

/-- A search clashes with nothing. -/
theorem not_clash_of_target {op op' : Op K T} (h : op.target = none) : ¬ Clash op op' := by
  rintro ⟨hx | hx, ht⟩
  · obtain ⟨k, hk⟩ := op.target_of_exclusive hx
    cases h.symm.trans hk
  · obtain ⟨k, hk⟩ := op'.target_of_exclusive hx
    cases h.symm.trans (ht.trans hk)

def Hold.isHeld : Hold → Bool
  | .held _ => true
  | .none | .copied .. => false

def Hold.isCopied : Hold → Bool
  | .copied .. => true
  | .none | .held _ => false

/-- The slot is in a level that is not dropped, and the rehasher has not done
with it. -/
def Mem.Safe (m : Mem K T) (p : Slot) : Prop :=
  m.cur.lastLevel ≤ p.level ∧ (p.level = m.cur.lastLevel →
    m.expandBucket < p.bucket ∨ m.expandBucket = p.bucket ∧
      (m.cursor < p.slot ∨ m.cursor = p.slot ∧ m.hold.isCopied = false))

/-- The word `w` in slot `p` is that of an entry with key `k`. -/
def Mem.At (m : Mem K T) (k : K) (p : Slot) (w : Word) : Prop :=
  m.slots p = w ∧ ∃ v, m.entryAt p = some (k, v)

/-- One access of thread `t`. -/
inductive Move (H : Table K) (t : Nat) (m : Mem K T) : Mem K T → Prop where
  | stay : Move H t m m
  | enter (op : Op K T) (calls : K → List (Op K T))
      (hidle : ∀ x ∈ m.ops, x.1 ≠ t) (hfree : ∀ x ∈ m.ops, ¬ Clash op x.2)
      (hcall : ∀ k, op.target = some k → calls k = m.calls k ++ [op])
      (hrest : ∀ k, op.target ≠ some k → calls k = m.calls k) :
      Move H t m { m with ops := (t, op) :: m.ops, calls := calls }
  | leave (hh : t = 0 → m.hold.isCopied = false) : Move H t m { m with ops := m.ops.filter fun x => x.1 != t }
  | link : Move H t m { m with levels := m.levels + 1 }
  | grow (first : Nat) (flag : Bool) (hle : m.cur.firstLevel ≤ first) (hlt : first < m.levels) :
      Move H t m { m with
        metaPtr := m.metaPtr + 1
        metas := update m.metas (m.metaPtr + 1) ⟨first, m.cur.lastLevel, flag⟩ }
  | allocate (op : Op K T) (kv : K × T) (a : Word) (hop : (t, op) ∈ m.ops)
      (hc : op.created = some (kv, a)) (hnew : a ≠ 0 ∧ addr a = a ∧ m.entries a = none) :
      Move H t m (m.allocate t a kv)
  | release (a : Word) (h : m.owner a = some t) : Move H t m (m.release a)
  | put (op : Op K T) (k : K) (v : T) (q : Slot) (w : Word) (hop : (t, op) ∈ m.ops)
      (htarget : op.target = some k) (he : m.entries (addr w) = some (k, v))
      (hw : Placed H m.entries q w) (hown : ∀ u, m.owner (addr w) = some u → u = t)
      (hq : q.level ≤ m.cur.firstLevel)
      (hold : m.slots q = 0 ∨ op.exclusive = true ∧ (∃ u, m.entryAt q = some (k, u)) ∧
        (m.hold ≠ .none → q ≠ m.src)) :
      Move H t m (Mem.disown (addr w) { m with slots := update m.slots q w })
  | remove (op : Op K T) (k : K) (v : T) (q : Slot) (hop : (t, op) ∈ m.ops)
      (hx : op.exclusive = true) (htarget : op.target = some k) (hq : m.entryAt q = some (k, v))
      (hsole : ∀ p, p ≠ q → m.slots p ≠ m.slots q) (hheld : m.hold.isHeld = true → q ≠ m.src) :
      Move H t m (Mem.own t (addr (m.slots q)) { m with slots := update m.slots q 0 })
  | dup (op : Op K T) (k : K) (v : T) (q : Slot) (hop : (t, op) ∈ m.ops)
      (hx : op.exclusive = true) (htarget : op.target = some k) (hq : m.entryAt q = some (k, v))
      (hheld : m.hold.isHeld = true → q ≠ m.src) :
      Move H t m { m with slots := update m.slots q 0 }
  | hold (w : Word) (ht : t = 0) (hw : m.slots m.src = w) (hne : w ≠ 0) (hh : m.hold = .none) :
      Move H t m { m with hold := .held w }
  | skip (ht : t = 0) (hz : m.slots m.src = 0) (hh : m.hold = .none) :
      Move H t m { m with cursor := m.cursor + 1 }
  | copy (w : Word) (dst : Slot) (k : K) (v : T) (ht : t = 0) (hop : (t, .resize) ∈ m.ops)
      (hh : m.hold = .held w)
      (hz : m.slots dst = 0) (he : m.entries (addr w) = some (k, v)) (hs : H.IsSlot k dst)
      (hlo : m.cur.lastLevel < dst.level) (hhi : dst.level ≤ m.cur.firstLevel) :
      Move H t m { m with slots := update m.slots dst w, hold := .copied w dst }
  | clear (w : Word) (dst : Slot) (ht : t = 0) (hh : m.hold = .copied w dst) : Move H t m { m with
        slots := update m.slots m.src 0
        cursor := m.cursor + 1
        hold := .none }
  | restart (ht : t = 0) (hh : m.hold.isCopied = false) :
      Move H t m { m with cursor := 0, hold := .none }
  | pass (ht : t = 0) (hh : m.hold = .none) (hc : m.cursor = assocNum) :
      Move H t m { m with expandBucket := m.expandBucket + 1, cursor := 0 }
  | drop (flag : Bool) (ht : t = 0) (hh : m.hold = .none) (hc : m.cursor = 0)
      (hb : m.expandBucket = H.capacity m.cur.lastLevel)
      (hl : m.cur.lastLevel + 1 < m.cur.firstLevel) :
      Move H t m { m with
        metaPtr := m.metaPtr + 1
        metas := update m.metas (m.metaPtr + 1)
          ⟨m.cur.firstLevel, m.cur.lastLevel + 1, flag⟩
        expandBucket := 0 }

structure Inv (H : Table K) (m : Mem K T) : Prop where
  placed : WellPlaced H m
  top : m.cur.firstLevel < m.levels
  snapshots : ∀ i, i ≤ m.metaPtr → (m.metas i).lastLevel < (m.metas i).firstLevel ∧
    (m.metas i).lastLevel ≤ m.cur.lastLevel ∧ (m.metas i).firstLevel ≤ m.cur.firstLevel
  below : ∀ q, m.slots q ≠ 0 → q.level ≤ m.cur.firstLevel
  held : ∀ w, m.hold = .held w → m.slots m.src = w ∧ w ≠ 0
  idle : (∀ x ∈ m.ops, x.1 ≠ 0) → m.hold.isCopied = false
  hidden : ∀ a t, m.owner a = some t → ∀ q, m.slots q ≠ 0 → addr (m.slots q) ≠ a
  apart : ∀ x ∈ m.ops, ∀ y ∈ m.ops, x.1 ≠ y.1 → ¬ Clash x.2 y.2
  called : ∀ x ∈ m.ops, ∀ k, x.2.target = some k → x.2 ∈ m.calls k
  made : ∀ a kv, m.entries a = some kv → ∃ op ∈ m.calls kv.1, op.created = some (kv, a)

variable {H : Table K} {t : Nat} {m m' : Mem K T}

/-! ## The published chain only grows at the top and shrinks at the bottom -/

structure Later (m m' : Mem K T) : Prop where
  ptr : m.metaPtr ≤ m'.metaPtr
  metas : ∀ i, i ≤ m.metaPtr → m'.metas i = m.metas i
  levels : m.levels ≤ m'.levels
  last : m.cur.lastLevel ≤ m'.cur.lastLevel
  first : m.cur.firstLevel ≤ m'.cur.firstLevel

theorem publish_cur (m : Mem K T) (mt : Meta) (b : Nat) : ({ m with
      metaPtr := m.metaPtr + 1
      metas := update m.metas (m.metaPtr + 1) mt
      expandBucket := b } : Mem K T).cur = mt :=
  update_self ..

theorem Later.publish (mt : Meta) (hlast : m.cur.lastLevel ≤ mt.lastLevel)
    (hfirst : m.cur.firstLevel ≤ mt.firstLevel) (b : Nat) :
    Later m { m with
      metaPtr := m.metaPtr + 1
      metas := update m.metas (m.metaPtr + 1) mt
      expandBucket := b } where
  ptr := Nat.le_succ _
  metas := fun i hi => update_of_ne (by omega) ..
  levels := Nat.le_refl _
  last := by rw [publish_cur]; exact hlast
  first := by rw [publish_cur]; exact hfirst

theorem Move.later (h : Move H t m m') : Later m m' := by
  cases h with
  | link => exact ⟨Nat.le_refl _, fun _ _ => rfl, Nat.le_succ _, Nat.le_refl _, Nat.le_refl _⟩
  | grow first flag hle hlt => exact .publish ⟨first, _, flag⟩ (Nat.le_refl _) hle _
  | drop flag ht hh hc hb hl =>
    exact .publish ⟨_, _, flag⟩ (Nat.le_succ _) (Nat.le_refl _) 0
  | _ => exact ⟨Nat.le_refl _, fun _ _ => rfl, Nat.le_refl _, Nat.le_refl _, Nat.le_refl _⟩

/-! ## The invariant -/

namespace Inv

theorem chain (h : Inv H m) : m.cur.lastLevel < m.cur.firstLevel :=
  (h.snapshots m.metaPtr (Nat.le_refl _)).1

theorem hidden_entries (h : Inv H m) {a : Word} {u : Nat} (ha : m.owner a = some u) {q : Slot}
    (hq : m.slots q ≠ 0) : addr (m.slots q) ≠ a := h.hidden a u ha q hq

theorem target_ne (h : Inv H m) {t u : Nat} {op op' : Op K T} (hop : (t, op) ∈ m.ops)
    (hop' : (u, op') ∈ m.ops) (hne : u ≠ t)
    (hx : op.exclusive = true ∨ op'.exclusive = true) : op'.target ≠ op.target :=
  fun he => h.apart _ hop _ hop' (Ne.symm hne) ⟨hx, he.symm⟩

end Inv

/-- What a slot points to is neither deleted nor allocated. -/
theorem Move.entries_pointed (h : Move H t m m') (hi : Inv H m) {q : Slot} (hq : m.slots q ≠ 0) :
    m'.entries (addr (m.slots q)) = m.entries (addr (m.slots q)) := by
  cases h with
  | allocate op kv a hop hc hnew =>
    obtain ⟨kv', he, _⟩ := (hi.placed q hq).entry
    exact update_of_ne (fun h => by rw [h, hnew.2.2] at he; cases he) ..
  | release a h => exact update_of_ne (hi.hidden_entries h hq) ..
  | _ => rfl

theorem Move.placed (h : Move H t m m') (hi : Inv H m) : WellPlaced H m' := by
  have hp := hi.placed
  cases h with
  | allocate op kv a hop hc hnew =>
    exact hp.entries fun q hq => (Move.allocate op kv a hop hc hnew).entries_pointed hi hq
  | release a h => exact hp.entries fun q hq => (Move.release a h).entries_pointed hi hq
  | put op k v q w hop htarget he hw hown hq hold => exact hp.write hw
  | remove op k v q hop hx htarget hq hsole hheld => exact hp.clear q
  | dup op k v q hop hx htarget hq hheld => exact hp.clear q
  | copy w dst k v ht hop hh hz he hs hlo hhi =>
    obtain ⟨hsrc, hne⟩ := hi.held w hh
    obtain ⟨ha, kv, he', hpar, _⟩ := hp m.src (by rw [hsrc]; exact hne)
    rw [hsrc] at ha he' hpar
    rw [he] at he'
    injection he' with he'
    subst he'
    exact hp.write ⟨ha, _, he, hpar, hs⟩
  | clear w dst ht hh => exact hp.clear m.src
  | _ => exact hp

theorem Move.top (h : Move H t m m') (hi : Inv H m) : m'.cur.firstLevel < m'.levels := by
  have ht := hi.top
  cases h with
  | link => exact Nat.lt_succ_of_lt ht
  | grow first flag hle hlt => rw [publish_cur]; exact hlt
  | drop flag ht hh hc hb hl => rw [publish_cur]; exact hi.top
  | _ => exact ht

theorem Inv.publish (hi : Inv H m) (mt : Meta) (hlt : mt.lastLevel < mt.firstLevel)
    (hlast : m.cur.lastLevel ≤ mt.lastLevel) (hfirst : m.cur.firstLevel ≤ mt.firstLevel) {i : Nat}
    (h : i ≤ m.metaPtr + 1) :
    (update m.metas (m.metaPtr + 1) mt i).lastLevel <
        (update m.metas (m.metaPtr + 1) mt i).firstLevel ∧
      (update m.metas (m.metaPtr + 1) mt i).lastLevel ≤ mt.lastLevel ∧
      (update m.metas (m.metaPtr + 1) mt i).firstLevel ≤ mt.firstLevel := by
  rw [update_apply]
  split
  · exact ⟨hlt, Nat.le_refl _, Nat.le_refl _⟩
  · have := hi.snapshots i (by omega)
    omega

theorem Move.snapshots (h : Move H t m m') (hi : Inv H m) : ∀ i, i ≤ m'.metaPtr →
    (m'.metas i).lastLevel < (m'.metas i).firstLevel ∧
      (m'.metas i).lastLevel ≤ m'.cur.lastLevel ∧
      (m'.metas i).firstLevel ≤ m'.cur.firstLevel := by
  have hc := hi.chain
  cases h with
  | grow first flag hle hlt =>
    intro i h
    rw [publish_cur]
    exact hi.publish ⟨first, _, flag⟩ (Nat.lt_of_lt_of_le hc hle) (Nat.le_refl _) hle h
  | drop flag ht hh hcur hb hl =>
    intro i h
    rw [publish_cur]
    exact hi.publish ⟨_, _, flag⟩ hl (Nat.le_succ _) (Nat.le_refl _) h
  | _ => exact hi.snapshots

/-! ## What becomes of a slot -/

/-- The ways in which a move of thread `t` can treat slot `p`. -/
inductive Change (m : Mem K T) (t : Nat) (m' : Mem K T) (p : Slot) : Prop where
  | same (h : m'.slots p = m.slots p)
  /-- The thread's own key is put into the slot or taken out of it. -/
  | mine (op : Op K T) (k : K) (hop : (t, op) ∈ m.ops) (htarget : op.target = some k)
      (hwas : m.slots p = 0 ∨ op.exclusive = true ∧ ∃ v, m.entryAt p = some (k, v))
      (hnow : m'.slots p = 0 ∨ p.level ≤ m.cur.firstLevel ∧ ∃ v, m'.entryAt p = some (k, v))
  | copied (w : Word) (ht : t = 0) (hh : m.hold = .held w) (hh' : m'.hold = .copied w p)
      (hsrc : m'.src = m.src) (hwas : m.slots p = 0) (hnow : m'.slots p = w)
      (hlo : m.cur.lastLevel < p.level) (hhi : p.level ≤ m.cur.firstLevel)
  | cleared (w : Word) (dst : Slot) (ht : t = 0) (hh : m.hold = .copied w dst) (hp : p = m.src)
      (hnow : m'.slots p = 0)

theorem Move.change (h : Move H t m m') (p : Slot) : Change m t m' p := by
  cases h with
  | put op k v q w hop htarget he hw hown hq hold =>
    by_cases hpq : p = q
    · subst hpq
      refine .mine op k hop htarget ?_ (.inr ⟨hq, v, ?_⟩)
      · rcases hold with hz | ⟨hx, hk, _⟩
        · exact .inl hz
        · exact .inr ⟨hx, hk⟩
      · refine entryAt_eq_some.mpr ?_
        simp only [Mem.disown, update_self]
        exact ⟨hw.addr_ne, he⟩
    · exact .same (update_of_ne hpq ..)
  | remove op k v q hop hx htarget hq hsole hheld | dup op k v q hop hx htarget hq hheld =>
    by_cases hpq : p = q
    · subst hpq
      exact .mine op k hop htarget (.inr ⟨hx, v, hq⟩) (.inl (update_self ..))
    · exact .same (update_of_ne hpq ..)
  | copy w dst k v ht hop hh hz he hs hlo hhi =>
    by_cases hpq : p = dst
    · subst hpq
      exact .copied w ht hh rfl rfl hz (update_self ..) hlo hhi
    · exact .same (update_of_ne hpq ..)
  | clear w dst ht hh =>
    by_cases hpq : p = m.src
    · exact .cleared w dst ht hh hpq (by rw [hpq]; exact update_self ..)
    · exact .same (update_of_ne hpq ..)
  | _ => exact .same rfl

theorem Move.below (h : Move H t m m') (hi : Inv H m) {q : Slot} (hq : m'.slots q ≠ 0) :
    q.level ≤ m'.cur.firstLevel := by
  refine Nat.le_trans ?_ h.later.first
  rcases h.change q with hs | ⟨op, k, hop, htarget, hwas, hnow⟩ | ⟨w, _, _, _, _, _, _, _, hhi⟩ |
    ⟨w, dst, _, _, _, hnow⟩
  · exact hi.below q (hs ▸ hq)
  · rcases hnow with hz | ⟨hl, _⟩
    · exact absurd hz hq
    · exact hl
  · exact hhi
  · exact absurd hnow hq

/-! ## The rest of the invariant -/

theorem Move.held (h : Move H t m m') (hi : Inv H m) (w : Word) (hw : m'.hold = .held w) :
    m'.slots m'.src = w ∧ w ≠ 0 := by
  have hh := hi.held w
  cases h with
  | grow first flag hle hlt =>
    rw [Mem.src, publish_cur]
    exact hh hw
  | put op k v q x hop htarget he hx hown hq hold =>
    obtain ⟨hsrc, hne⟩ := hh hw
    refine ⟨?_, hne⟩
    have hqs : m.src ≠ q := by
      rintro rfl
      rcases hold with hz | ⟨_, _, hns⟩
      · exact hne (hsrc.symm.trans hz)
      · exact hns (fun hn => by rw [show m.hold = .held w from hw] at hn; cases hn) rfl
    exact (update_of_ne hqs ..).trans hsrc
  | remove op k v q hop hx htarget hq hsole hheld | dup op k v q hop hx htarget hq hheld =>
    obtain ⟨hsrc, hne⟩ := hh hw
    have hqs := hheld (by rw [show m.hold = .held w from hw]; rfl)
    exact ⟨(update_of_ne (Ne.symm hqs) ..).trans hsrc, hne⟩
  | hold x ht hx hne hn =>
    injection hw with hw
    subst hw
    exact ⟨hx, hne⟩
  | skip ht hz hn | pass ht hn hc
  | drop flag ht hn hc hb hl => rw [show m.hold = .held w from hw] at hn; cases hn
  | copy x dst k v ht hop hx hz he hs hlo hhi => cases hw
  | clear x dst ht hx => cases hw
  | restart ht hx => cases hw
  | _ => exact hh hw

theorem Move.idle (h : Move H t m m') (hi : Inv H m) (hw : ∀ x ∈ m'.ops, x.1 ≠ 0) :
    m'.hold.isCopied = false := by
  cases h with
  | enter op calls hidle hfree hcall hrest =>
    exact hi.idle fun x hx => hw x (.tail _ hx)
  | leave hh =>
    by_cases ht : t = 0
    · exact hh ht
    · refine hi.idle fun x hx hx0 => hw x (List.mem_filter.mpr ⟨hx, ?_⟩) hx0
      rw [hx0]
      exact bne_iff_ne.mpr (Ne.symm ht)
  | hold w ht hw hne hh => rfl
  | copy w dst k v ht hop hh hz he hs hlo hhi => exact absurd ht (hw _ hop)
  | clear w dst ht hh => rfl
  | restart ht hh => rfl
  | _ => exact hi.idle hw

/-- One address is in the slots as one word. -/
theorem Inv.word_eq (hi : Inv H m) {p q : Slot} (hp : m.slots p ≠ 0) (hq : m.slots q ≠ 0)
    (ha : addr (m.slots p) = addr (m.slots q)) : m.slots p = m.slots q := by
  obtain ⟨_, kv, he, hpar, _⟩ := hi.placed p hp
  obtain ⟨_, kv', he', hpar', _⟩ := hi.placed q hq
  rw [ha, he'] at he
  injection he with he
  subst he
  exact word_ext ha (hpar.trans hpar'.symm)

theorem Move.hidden (h : Move H t m m') (hi : Inv H m) {a : Word} {u : Nat}
    (ha : m'.owner a = some u) {q : Slot} (hq : m'.slots q ≠ 0) : addr (m'.slots q) ≠ a := by
  cases h with
  | allocate op kv b hop hc hnew =>
    by_cases hab : a = b
    · intro hqa
      obtain ⟨kv', he, _⟩ := (hi.placed q hq).entry
      rw [show addr (m.slots q) = b from hqa.trans hab, hnew.2.2] at he
      cases he
    · exact hi.hidden_entries ((update_of_ne hab ..).symm.trans ha) hq
  | release b hb =>
    by_cases hab : a = b
    · subst hab
      rw [show (m.release a).owner a = none from update_self ..] at ha
      cases ha
    · exact hi.hidden_entries ((update_of_ne hab ..).symm.trans ha) hq
  | put op k v p w hop htarget he hw hown hp hold =>
    dsimp only [Mem.disown] at ha hq ⊢
    rw [update_apply] at ha
    split at ha
    · cases ha
    · next haw =>
      by_cases hqp : q = p
      · rw [hqp, update_self]
        exact Ne.symm haw
      · rw [update_of_ne hqp] at hq ⊢
        exact hi.hidden_entries ha hq
  | remove op k v p hop hx htarget hp hsole hheld =>
    dsimp only [Mem.own] at ha hq ⊢
    by_cases hqp : q = p
    · rw [hqp, update_self] at hq
      exact absurd rfl hq
    · rw [update_of_ne hqp] at hq ⊢
      by_cases hap : a = addr (m.slots p)
      · rw [hap]
        exact fun h => hsole q hqp (hi.word_eq hq (hi.placed.of_entryAt hp).2.2 h)
      · rw [update_of_ne hap] at ha
        exact hi.hidden_entries ha hq
  | dup op k v p hop hx htarget hp hheld =>
    dsimp only at hq ⊢
    by_cases hqp : q = p
    · rw [hqp, update_self] at hq
      exact absurd rfl hq
    · rw [update_of_ne hqp] at hq ⊢
      exact hi.hidden_entries ha hq
  | copy w dst k v ht hop hh hz he hs hlo hhi =>
    dsimp only at hq ⊢
    by_cases hqp : q = dst
    · obtain ⟨hsrc, hne⟩ := hi.held w hh
      rw [hqp, update_self, ← hsrc]
      exact hi.hidden_entries ha (by rw [hsrc]; exact hne)
    · rw [update_of_ne hqp] at hq ⊢
      exact hi.hidden_entries ha hq
  | clear w dst ht hh =>
    dsimp only at hq ⊢
    by_cases hqp : q = m.src
    · rw [hqp, update_self] at hq
      exact absurd rfl hq
    · rw [update_of_ne hqp] at hq ⊢
      exact hi.hidden_entries ha hq
  | _ => exact hi.hidden_entries ha hq

theorem Move.apart (h : Move H t m m') (hi : Inv H m) :
    ∀ x ∈ m'.ops, ∀ y ∈ m'.ops, x.1 ≠ y.1 → ¬ Clash x.2 y.2 := by
  cases h with
  | enter op calls hidle hfree hcall hrest =>
    intro x hx y hy hne
    rcases List.mem_cons.mp hx with rfl | hx <;> rcases List.mem_cons.mp hy with rfl | hy
    · exact absurd rfl hne
    · exact hfree y hy
    · exact fun hc => hfree x hx hc.symm
    · exact hi.apart x hx y hy hne
  | leave hh =>
    exact fun x hx y hy =>
      hi.apart x (List.mem_of_mem_filter hx) y (List.mem_of_mem_filter hy)
  | _ => exact hi.apart

theorem Move.calls (h : Move H t m m') (k : K) : m.calls k <+: m'.calls k := by
  cases h with
  | enter op calls hidle hfree hcall hrest =>
    by_cases hk : op.target = some k
    · exact ⟨[op], (hcall k hk).symm⟩
    · exact ⟨[], (List.append_nil _).trans (hrest k hk).symm⟩
  | _ => exact List.prefix_refl _

theorem Move.called (h : Move H t m m') (hi : Inv H m) :
    ∀ x ∈ m'.ops, ∀ k, x.2.target = some k → x.2 ∈ m'.calls k := by
  cases h with
  | enter op calls hidle hfree hcall hrest =>
    intro x hx k hk
    rcases List.mem_cons.mp hx with rfl | hx
    · dsimp only at hk ⊢
      rw [hcall k hk]
      exact List.mem_append_right _ (List.mem_singleton.mpr rfl)
    · exact ((Move.enter (H := H) op calls hidle hfree hcall hrest).calls k).subset (hi.called x hx k hk)
  | leave hh => exact fun x hx => hi.called x (List.mem_of_mem_filter hx)
  | _ => exact hi.called

theorem Op.target_of_created {op : Op K T} {kv : K × T} {a : Word}
    (h : op.created = some (kv, a)) : op.target = some kv.1 := by
  cases op <;> cases h <;> rfl

theorem Move.made (h : Move H t m m') (hi : Inv H m) (a : Word) (kv : K × T)
    (he : m'.entries a = some kv) : ∃ op ∈ m'.calls kv.1, op.created = some (kv, a) := by
  cases h with
  | enter op calls hidle hfree hcall hrest =>
    obtain ⟨op', hop', hc⟩ := hi.made a kv he
    exact ⟨op', ((Move.enter (H := H) op calls hidle hfree hcall hrest).calls _).subset hop', hc⟩
  | allocate op kv' b hop hc hnew =>
    by_cases hab : a = b
    · subst hab
      rw [show (m.allocate t a kv').entries a = some kv' from update_self ..] at he
      injection he with he
      subst he
      exact ⟨op, hi.called _ hop _ (Op.target_of_created hc), hc⟩
    · exact hi.made a kv ((update_of_ne hab ..).symm.trans he)
  | release b hb =>
    by_cases hab : a = b
    · subst hab
      rw [show (m.release a).entries a = none from update_self ..] at he
      cases he
    · exact hi.made a kv ((update_of_ne hab ..).symm.trans he)
  | _ => exact hi.made a kv he

theorem Move.inv (h : Move H t m m') (hi : Inv H m) : Inv H m' where
  placed := h.placed hi
  top := h.top hi
  snapshots := h.snapshots hi
  below := fun _ hq => h.below hi hq
  held := h.held hi
  idle := h.idle hi
  hidden := fun _ _ ha _ hq => h.hidden hi ha hq
  apart := h.apart hi
  called := h.called hi
  made := h.made hi

theorem inv_start (before : Nat → Word) : Inv H (start before : Mem K T) where
  placed := fun _ hq => absurd rfl hq
  top := Nat.one_lt_two
  snapshots := fun _ _ => ⟨Nat.zero_lt_one, Nat.le_refl _, Nat.le_refl _⟩
  below := fun _ hq => absurd rfl hq
  held := fun _ h => by cases h
  idle := fun _ => rfl
  hidden := fun _ _ h => by cases h
  apart := fun _ h => by cases h
  called := fun _ h => by cases h
  made := fun _ _ h => by cases h

/-! ## What a thread may rely on -/

section View

variable {k : K} {p : Slot} {w : Word}

/-- The thread does nothing to the key. -/
def Mem.Foreign (m : Mem K T) (k : K) (t : Nat) : Prop :=
  ∀ op, (t, op) ∈ m.ops → op.target ≠ some k

theorem Mem.At.ne_zero (ha : m.At k p w) : m.slots p ≠ 0 := by
  obtain ⟨_, v, hv⟩ := ha
  exact fun hz => (entryAt_eq_some.mp hv).1 (by rw [hz, addr_zero])

theorem Mem.At.entry (ha : m.At k p w) : ∃ v, m.entries (addr w) = some (k, v) := by
  obtain ⟨rfl, v, hv⟩ := ha
  exact ⟨v, (entryAt_eq_some.mp hv).2⟩

theorem Mem.At.isSlot (ha : m.At k p w) (hi : Inv H m) : H.IsSlot k p := by
  obtain ⟨_, v, hv⟩ := ha
  exact (hi.placed.of_entryAt hv).2.1

theorem Mem.at_of_entry {v : T} (hs : m.slots p = w) (hne : addr w ≠ 0)
    (he : m.entries (addr w) = some (k, v)) : m.At k p w :=
  ⟨hs, v, entryAt_eq_some.mpr ⟨by rw [hs]; exact hne, by rw [hs]; exact he⟩⟩

theorem Move.at_same (h : Move H t m m') (hi : Inv H m) (ha : m.At k p w)
    (hs : m'.slots p = m.slots p) : m'.At k p w := by
  have hne := (hi.placed p ha.ne_zero).addr_ne
  obtain ⟨v, he⟩ := ha.entry
  have hp := h.entries_pointed hi ha.ne_zero
  rw [ha.1] at hs hne hp
  exact Mem.at_of_entry hs hne (hp.trans he)

theorem Move.at_before (h : Move H t m m') (hi : Inv H m) (ha : m'.At k p w)
    (hs : m'.slots p = m.slots p) : m.At k p w := by
  obtain ⟨hw, v, hv⟩ := ha
  obtain ⟨hne, he⟩ := entryAt_eq_some.mp hv
  rw [hw] at hs hne he
  have hp := h.entries_pointed hi fun hz => hne (by rw [hs, hz, addr_zero])
  rw [← hs, he] at hp
  exact Mem.at_of_entry hs.symm hne hp.symm

/-- The item of a key that the thread leaves alone stays in its slot, unless the
rehasher clears it there. -/
theorem Move.at_fate (h : Move H t m m') (hi : Inv H m) (hf : m.Foreign k t)
    (ha : m.At k p w) : m'.At k p w ∨ ∃ w' dst, m.hold = .copied w' dst ∧ p = m.src := by
  rcases h.change p with hs | ⟨op, k', hop, htarget, hwas, _⟩ | ⟨_, _, _, _, _, hwas, _⟩ |
    ⟨w', dst, _, hh, hp, _⟩
  · exact .inl (h.at_same hi ha hs)
  · rcases hwas with hz | ⟨_, v, hv⟩
    · exact absurd hz ha.ne_zero
    · obtain ⟨_, u, hu⟩ := ha
      cases hu.symm.trans hv
      exact absurd htarget (hf op hop)
  · exact absurd hwas ha.ne_zero
  · exact .inr ⟨w', dst, hh, hp⟩

theorem Move.at_above (h : Move H t m m') (hi : Inv H m) (hf : m.Foreign k t)
    (ha : m.At k p w) (hl : m'.cur.lastLevel < p.level) : m'.At k p w := by
  refine (h.at_fate hi hf ha).resolve_right ?_
  rintro ⟨_, _, _, rfl⟩
  have := h.later.last
  simp only [Mem.src] at hl
  omega

/-- A slot only gets a key that the thread leaves alone from the rehasher, which
holds it in a lower slot. -/
theorem Move.at_origin (h : Move H t m m') (hi : Inv H m) (hf : m.Foreign k t)
    (ha : m'.At k p w) : m.At k p w ∨ m.At k m.src w ∧ m'.hold = .copied w p ∧
      m'.src = m.src ∧ m.cur.lastLevel < p.level := by
  have ha' := ha
  obtain ⟨hw, v, hv⟩ := ha
  obtain ⟨hne, he⟩ := entryAt_eq_some.mp hv
  rw [hw] at hne he
  rcases h.change p with hs | ⟨op, k', hop, htarget, _, hnow⟩ |
    ⟨w', _, hh, hh', hsrc, _, hnow, hlo, _⟩ | ⟨_, _, _, _, _, hz⟩
  · exact .inl (h.at_before hi ha' hs)
  · rcases hnow with hz | ⟨_, u, hu⟩
    · exact absurd (by rw [← hw, hz, addr_zero]) hne
    · cases hv.symm.trans hu
      exact absurd htarget (hf op hop)
  · obtain rfl : w' = w := hnow.symm.trans hw
    obtain ⟨hs, hne'⟩ := hi.held w' hh
    have hp := h.entries_pointed hi (by rw [hs]; exact hne')
    rw [hs, he] at hp
    exact .inr ⟨Mem.at_of_entry hs hne hp.symm, hh', hsrc, hlo⟩
  · exact absurd (by rw [← hw, hz, addr_zero]) hne

theorem Mem.eq_src (hl : p.level = m.cur.lastLevel) (hb : m.expandBucket = p.bucket)
    (hc : m.cursor = p.slot) : p = m.src := by
  rw [Mem.src, ← hl, hb, hc]

/-- A slot stays safe, or the rehasher copies its word to a higher slot. -/
theorem Move.safe (h : Move H t m m') (hi : Inv H m) (hp : 2 ≤ H.hashpower) (hs : m.Safe p)
    (hne : m.slots p ≠ 0) : m'.Safe p ∨
      ∃ dst, p.level < dst.level ∧ m'.Safe dst ∧ m'.slots dst = m.slots p := by
  obtain ⟨_, hslot⟩ : ∃ k, H.IsSlot k p := by
    obtain ⟨kv, _, _, h⟩ := (hi.placed p hne).entry
    exact ⟨kv.1, h⟩
  obtain ⟨hlo, hb⟩ := hs
  cases h with
  | grow first flag hle hlt =>
    left
    rw [Mem.Safe, publish_cur]
    exact ⟨hlo, hb⟩
  | hold w ht hw hz hh =>
    refine .inl ⟨hlo, fun hl => (hb hl).imp_right fun ⟨h1, h2⟩ => ⟨h1, ?_⟩⟩
    exact h2.imp_right fun h => ⟨h.1, rfl⟩
  | skip ht hz hh =>
    refine .inl ⟨hlo, fun hl => (hb hl).imp_right fun ⟨h1, h2⟩ => ⟨h1, ?_⟩⟩
    have hcur : m.cursor < p.slot := by
      refine h2.resolve_right fun h => hne ?_
      rw [Mem.eq_src (m := m) hl h1 h.1]
      exact hz
    exact (Nat.lt_or_eq_of_le hcur).imp_right fun h => ⟨h, by rw [hh]; rfl⟩
  | copy w dst k v ht hop hh hz he hs hlo' hhi =>
    by_cases hsrc : p = m.src
    · refine .inr ⟨dst, ?_, ⟨Nat.le_of_lt hlo', fun h => absurd h (Nat.ne_of_gt hlo')⟩, ?_⟩
      · rw [hsrc]
        exact hlo'
      · rw [hsrc, (hi.held w hh).1]
        exact update_self ..
    · refine .inl ⟨hlo, fun hl => (hb hl).imp_right fun ⟨h1, h2⟩ => ⟨h1, .inl ?_⟩⟩
      exact h2.resolve_right fun h => hsrc (Mem.eq_src hl h1 h.1)
  | clear w dst ht hh =>
    refine .inl ⟨hlo, fun hl => (hb hl).imp_right fun ⟨h1, h2⟩ => ⟨h1, ?_⟩⟩
    have hcur : m.cursor < p.slot := by
      refine h2.resolve_right fun h => ?_
      rw [hh] at h
      cases h.2
    exact (Nat.lt_or_eq_of_le hcur).imp_right fun h => ⟨h, rfl⟩
  | restart ht hh =>
    refine .inl ⟨hlo, fun hl => (hb hl).imp_right fun ⟨h1, _⟩ => ⟨h1, ?_⟩⟩
    exact (Nat.eq_zero_or_pos p.slot).symm.imp_right fun h => ⟨h.symm, rfl⟩
  | pass ht hh hc =>
    refine .inl ⟨hlo, fun hl => ?_⟩
    have hbucket : m.expandBucket < p.bucket := by
      refine (hb hl).resolve_right fun h => ?_
      have := hslot.2
      omega
    refine (Nat.lt_or_eq_of_le hbucket).imp_right fun h => ⟨h, ?_⟩
    exact (Nat.eq_zero_or_pos p.slot).symm.imp_right fun h => ⟨h.symm, by rw [hh]; rfl⟩
  | drop flag ht hh hc hbucket hl =>
    left
    have hlt : m.cur.lastLevel < p.level := by
      refine Nat.lt_of_le_of_ne hlo fun h => ?_
      have := hslot.1.lt hp
      rw [← h] at this
      have := hb h.symm
      omega
    rw [Mem.Safe, publish_cur]
    refine ⟨hlt, fun _ => (Nat.eq_zero_or_pos p.bucket).symm.imp_right fun h => ⟨h.symm, ?_⟩⟩
    rw [show _ = m.cursor from rfl, hc]
    exact (Nat.eq_zero_or_pos p.slot).symm.imp_right fun h => ⟨h.symm, by rw [hh]; rfl⟩
  | _ => exact .inl ⟨hlo, hb⟩

/-- An item in a safe slot stays in one, with the same word, and does not move
down. -/
theorem Move.at_safe (h : Move H t m m') (hi : Inv H m) (hp : 2 ≤ H.hashpower)
    (hf : m.Foreign k t) (hs : m.Safe p) (ha : m.At k p w) :
    ∃ q, m'.Safe q ∧ m'.At k q w ∧ (q = p ∨ p.level < q.level) := by
  rcases h.safe hi hp hs ha.ne_zero with hs' | ⟨dst, hl, hs', hdst⟩
  · refine ⟨p, hs', (h.at_fate hi hf ha).resolve_right ?_, .inl rfl⟩
    rintro ⟨w', dst, hh, rfl⟩
    rcases hs.2 rfl with h | ⟨_, h | ⟨_, h⟩⟩
    · exact Nat.lt_irrefl _ h
    · exact Nat.lt_irrefl _ h
    · rw [hh] at h
      cases h
  · refine ⟨dst, hs', ?_, .inr hl⟩
    have hne := (hi.placed p ha.ne_zero).addr_ne
    obtain ⟨v, he⟩ := ha.entry
    have hptr := h.entries_pointed hi ha.ne_zero
    rw [ha.1] at hne hptr hdst
    exact Mem.at_of_entry hdst hne (hptr.trans he)

/-- An entry that no thread has to itself is only taken by an operation that
updates or erases its key. -/
theorem Move.entry_kept (h : Move H t m m') {a : Word} {v : T}
    (hf : ∀ op, (t, op) ∈ m.ops → op.exclusive = true → op.target ≠ some k)
    (he : m.entries a = some (k, v)) (ho : m.owner a = none) :
    m'.entries a = some (k, v) ∧ m'.owner a = none := by
  cases h with
  | allocate op kv b hop hc hnew =>
    have hab : a ≠ b := by
      rintro rfl
      rw [hnew.2.2] at he
      cases he
    exact ⟨(update_of_ne hab ..).trans he, (update_of_ne hab ..).trans ho⟩
  | release b hb =>
    have hab : a ≠ b := by
      rintro rfl
      rw [hb] at ho
      cases ho
    exact ⟨(update_of_ne hab ..).trans he, (update_of_ne hab ..).trans ho⟩
  | put op k' v' q w hop htarget he' hw hown hq hold =>
    refine ⟨he, ?_⟩
    dsimp only [Mem.disown]
    rw [update_apply]
    split
    · rfl
    · exact ho
  | remove op k' v' q hop hx htarget hq hsole hheld =>
    have hab : a ≠ addr (m.slots q) := by
      rintro rfl
      cases (entryAt_eq_some.mp hq).2.symm.trans he
      exact hf op hop hx htarget
    exact ⟨he, (update_of_ne hab ..).trans ho⟩
  | _ => exact ⟨he, ho⟩

/-- Nobody else touches what a thread has to itself. -/
theorem Move.entry_private (h : Move H t m m') (hi : Inv H m) {a : Word} {u : Nat} {kv : K × T}
    (hu : t ≠ u) (he : m.entries a = some kv) (ho : m.owner a = some u) :
    m'.entries a = some kv ∧ m'.owner a = some u := by
  cases h with
  | allocate op kv b hop hc hnew =>
    have hab : a ≠ b := by
      rintro rfl
      rw [hnew.2.2] at he
      cases he
    exact ⟨(update_of_ne hab ..).trans he, (update_of_ne hab ..).trans ho⟩
  | release b hb =>
    have hab : a ≠ b := by
      rintro rfl
      rw [hb] at ho
      injection ho with ho
      exact hu ho
    exact ⟨(update_of_ne hab ..).trans he, (update_of_ne hab ..).trans ho⟩
  | put op k' v' q w hop htarget he' hw hown hq hold =>
    have hab : a ≠ addr w := by
      rintro rfl
      exact hu (hown u ho).symm
    exact ⟨he, (update_of_ne hab ..).trans ho⟩
  | remove op k' v' q hop hx htarget hq hsole hheld =>
    have hab : a ≠ addr (m.slots q) :=
      (hi.hidden_entries ho (hi.placed.of_entryAt hq).2.2).symm
    exact ⟨he, (update_of_ne hab ..).trans ho⟩
  | _ => exact ⟨he, ho⟩

/-- No entry gets a key that the thread leaves alone. -/
theorem Move.entry_origin (h : Move H t m m') (hf : m.Foreign k t) {a : Word} {v : T}
    (he : m'.entries a = some (k, v)) : m.entries a = some (k, v) := by
  cases h with
  | allocate op kv b hop hc hnew =>
    by_cases hab : a = b
    · subst hab
      rw [show (m.allocate t a kv).entries a = some kv from update_self ..] at he
      injection he with he
      subst he
      exact absurd (Op.target_of_created hc) (hf op hop)
    · exact (update_of_ne hab ..).symm.trans he
  | release b hb =>
    by_cases hab : a = b
    · subst hab
      rw [show (m.release a).entries a = none from update_self ..] at he
      cases he
    · exact (update_of_ne hab ..).symm.trans he
  | _ => exact he

theorem Move.copied (h : Move H t m m') {dst : Slot} (hh : m.hold = .copied w dst) :
    m'.hold = .copied w dst ∧ m'.src = m.src ∨
      m'.slots m.src = 0 ∧ m'.cur.lastLevel = m.cur.lastLevel := by
  cases h with
  | grow first flag hle hlt => exact .inl ⟨hh, by rw [Mem.src, publish_cur]; rfl⟩
  | clear w dst ht hh => exact .inr ⟨update_self .., rfl⟩
  | hold w ht hw hne hn | skip ht hz hn
  | copy w dst k v ht hop hn hz he hs hlo hhi => rw [hh] at hn; cases hn
  | restart ht hn => rw [hh] at hn; cases hn
  | pass ht hn hc => rw [hh] at hn; cases hn
  | drop flag ht hn hc hb hl => rw [hh] at hn; cases hn
  | _ => exact .inl ⟨hh, rfl⟩

theorem Move.ops_kept (h : Move H t m m') {u : Nat} {op : Op K T} (hu : t ≠ u)
    (hop : (u, op) ∈ m.ops) : (u, op) ∈ m'.ops := by
  cases h with
  | enter op' calls hidle hfree hcall hrest => exact .tail _ hop
  | leave hh => exact List.mem_filter.mpr ⟨hop, by simpa using Ne.symm hu⟩
  | _ => exact hop

theorem Move.foreign (h : Move H t m m') {u : Nat} (hcalls : m'.calls k = m.calls k)
    (hf : m.Foreign k u) : m'.Foreign k u := by
  cases h with
  | enter op' calls hidle hfree hcall hrest =>
    intro op hop htarget
    rcases List.mem_cons.mp hop with heq | hop
    · injection heq with _ heq
      subst heq
      have := hcall k htarget
      rw [show calls k = m.calls k from hcalls] at this
      simp at this
    · exact hf op hop htarget
  | leave hh => exact fun op hop => hf op (List.mem_of_mem_filter hop)
  | _ => exact hf

theorem Move.rehasher (h : Move H t m m') (ht : t ≠ 0) : m'.src = m.src ∧ m'.hold = m.hold := by
  cases h with
  | grow first flag hle hlt => exact ⟨by rw [Mem.src, publish_cur]; rfl, rfl⟩
  | hold w h0 | skip h0 | copy w dst k v h0 | clear w dst h0 | restart h0
  | pass h0 => exact absurd h0 ht
  | drop flag h0 => exact absurd h0 ht
  | _ => exact ⟨rfl, rfl⟩

end View

end ShmPcc.ClevelHash
