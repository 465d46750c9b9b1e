import ShmPcc.Ref.CxlRefCount

/-!
# The invariant of the reference counts

`val` is what the counts say: it changes with the CAS, and the slot follows it. The
invariant relates the two where nobody works on the slot, the counts to `val`, and
the eras in the counts and in the rows to the last CAS of their threads, `posted`.
A place in the buffer of a queue is worked on only by the sender of the queue, at
its end, and by the receiver, at its start.

`Move` lists what the steps of a thread do to the memory, and `Kept` what another
thread can rely on while they do it.
-/

namespace ShmPcc.CxlRefCount

open Function

variable {m m' : Mem} {u w q i o t : Nat} {s : Slot}

/-! ## The invariant -/

/-- Place `i` of queue `q` is between `start` and `end`. -/
def Mem.inRing (m : Mem) (q i : Nat) : Prop :=
  i < 16 ∧ (i + 16 - m.qStart q) % 16 < (m.qEnd q + 16 - m.qStart q) % 16

/-- The queue has room for one more. -/
def Mem.room (m : Mem) (q : Nat) : Prop := (m.qEnd q + 1) % 16 ≠ m.qStart q

def Mem.nonempty (m : Mem) (q : Nat) : Prop := m.qStart q ≠ m.qEnd q

/-- Thread `u` may work on place `i` of queue `q`. -/
def Mem.atEnds (m : Mem) (u q i : Nat) : Prop :=
  (i = m.qStart q ∧ m.receiverId q = u ∧ m.nonempty q) ∨
    (i = m.qEnd q ∧ m.senderId q = u ∧ m.room q)

structure Inv (m : Mem) : Prop where
  count : ∀ o, o ≠ 0 → (m.refInfo o).refCnt = tally m.val o
  sparse : Sparse 0 m.val
  rest : ∀ s, m.user s = 0 → m.slot s = m.val s
  lenum : ∀ o, 1 ≤ (m.refInfo o).lcid → (m.refInfo o).lenum ≤ m.posted (m.refInfo o).lcid
  seen : ∀ j k, j ≠ k → 1 ≤ k → m.era j k ≤ m.posted k
  ring : ∀ q, m.qStart q < 16 ∧ m.qEnd q < 16
  full : ∀ q i, m.user (.buffer q i) = 0 → (m.val (.buffer q i) ≠ 0 ↔ m.inRing q i)
  used : ∀ q i, m.user (.buffer q i) ≠ 0 → m.atEnds (m.user (.buffer q i)) q i
  pinned : ∀ q i, m.pins (.buffer q i) = []

/-- What the slot holds before the operation. -/
def Kind.source : Kind → Nat → Nat
  | .linkRef, _ => 0
  | .unlinkRef, refed => refed

/-- The changes thread `u` makes, with what it knows then. -/
inductive Move (u : Nat) (m : Mem) : Mem → Prop where
  | claim {s : Slot} (hu : u ≠ 0) (h : m.user s = 0) (hp : m.pins s = [])
      (hq : ∀ q i, s = .buffer q i → m.atEnds u q i) : Move u m (m.setUser s u)
  | release {a : Nat} (hu : u ≠ 0) (h : m.user (.ref a) = u) (hs : m.slot (.ref a) = m.val (.ref a)) :
      Move u m (m.setUser (.ref a) 0)
  | pin {b : Nat} : Move u m (m.pin u (.ref b))
  | unpin {s : Slot} : Move u m (m.unpin u s)
  | note {k x : Nat} (hk : k ≠ u) (hle : m.era u k ≤ x) (hx : 1 ≤ k → x ≤ m.posted k) :
      Move u m (m.setEra u k x)
  | log {i : Nat} {r : RedoLog} : Move u m (m.setRedo u i r)
  | cas {kind : Kind} {ref : Slot} {refed : Nat} (hu : 1 ≤ u) (hu' : u ≤ maxThread)
      (href : m.user ref = u) (hne : refed ≠ 0) (hval : m.val ref = kind.source refed)
      (hvia : ∃ via, m.val via = refed) (hfit : kind.newCnt (m.refInfo refed).refCnt < 2 ^ 16)
      (hposted : m.posted u < m.era u u)
      (hknown : (m.refInfo refed).lcid ≠ u →
        (m.refInfo refed).lenum ≤ m.era u (m.refInfo refed).lcid) :
      Move u m (m.cas u kind ref refed (m.refInfo refed) (m.era u u))
  | write {s : Slot} (hu : u ≠ 0) (h : m.user s = u) : Move u m (m.setSlot s (m.val s))
  | bump (h : m.posted u = m.era u u) : Move u m (m.setEra u u (m.era u u + 1))
  | free {o : Nat} (hcnt : (m.refInfo o).refCnt = 0) (hl : (m.refInfo o).lcid = u) :
      Move u m (m.setRefInfo o ⟨0, 0, 0⟩)
  | sendNext {q : Nat} (h : m.user (.buffer q (m.qEnd q)) = u) (hsend : m.senderId q = u)
      (hroom : m.room q) (hs : m.slot (.buffer q (m.qEnd q)) = m.val (.buffer q (m.qEnd q)))
      (hval : m.val (.buffer q (m.qEnd q)) ≠ 0) :
      Move u m { m.setUser (.buffer q (m.qEnd q)) 0 with
        qEnd := update m.qEnd q ((m.qEnd q + 1) % messageBufferSize) }
  | recvNext {q : Nat} (h : m.user (.buffer q (m.qStart q)) = u) (hrecv : m.receiverId q = u)
      (hne : m.nonempty q) (hs : m.slot (.buffer q (m.qStart q)) = m.val (.buffer q (m.qStart q)))
      (hval : m.val (.buffer q (m.qStart q)) = 0) :
      Move u m { m.setUser (.buffer q (m.qStart q)) 0 with
        qStart := update m.qStart q ((m.qStart q + 1) % messageBufferSize) }

/-! ### Small facts about the updates -/

theorem setUser_self : (m.setUser s u).user s = u := update_self ..

theorem setUser_ne {s' : Slot} (h : s' ≠ s) : (m.setUser s u).user s' = m.user s' :=
  update_of_ne h ..

variable {k x : Nat}

theorem setEra_self : (m.setEra u k x).era u k = x := by
  simp [Mem.setEra]

theorem setEra_row {j : Nat} (h : j ≠ u) : (m.setEra u k x).era j = m.era j :=
  update_of_ne h ..

theorem setEra_ne {j l : Nat} (h : ¬ (j = u ∧ l = k)) : (m.setEra u k x).era j l = m.era j l := by
  by_cases hj : j = u
  · subst hj
    have hl : l ≠ k := fun hl => h ⟨rfl, hl⟩
    simp [Mem.setEra, hl]
  · rw [setEra_row hj]

theorem pin_self : (m.pin u s).pins s = u :: m.pins s := update_self ..

theorem pin_ne {s' : Slot} (h : s' ≠ s) : (m.pin u s).pins s' = m.pins s' :=
  update_of_ne h ..

theorem unpin_self : (m.unpin u s).pins s = (m.pins s).erase u := update_self ..

theorem unpin_ne {s' : Slot} (h : s' ≠ s) : (m.unpin u s).pins s' = m.pins s' :=
  update_of_ne h ..

variable {e : Nat}

theorem packRefInfo_of_lt {cnt : Nat} (hu : u ≤ maxThread) (hcnt : cnt < 2 ^ 16) :
    packRefInfo u cnt e = ⟨u, cnt, e⟩ := by
  rw [maxThread] at hu
  rw [packRefInfo, Nat.div_eq_of_lt hcnt, Nat.mod_eq_of_lt hcnt, Nat.add_zero,
    Nat.mod_eq_of_lt (by omega)]

variable {kind : Kind} {refed : Nat} {info : RefInfo} {ref : Slot}

theorem cas_refInfo_self :
    (m.cas u kind ref refed info e).refInfo refed = packRefInfo u (kind.newCnt info.refCnt) e :=
  update_self ..

theorem cas_refInfo_ne (h : o ≠ refed) : (m.cas u kind ref refed info e).refInfo o = m.refInfo o :=
  update_of_ne h ..

theorem cas_posted_self : (m.cas u kind ref refed info e).posted u = e :=
  update_self ..

theorem cas_posted_ne (h : w ≠ u) : (m.cas u kind ref refed info e).posted w = m.posted w :=
  update_of_ne h ..

theorem cas_val_ne (h : s ≠ ref) : (m.cas u kind ref refed info e).val s = m.val s :=
  update_of_ne h ..

theorem cas_val_self : (m.cas u kind ref refed info e).val ref = kind.target refed :=
  update_self ..

/-! ## The steps keep it -/

theorem Inv.setUser_claim (hi : Inv m) (hu : u ≠ 0) (h : m.user s = 0)
    (hq : ∀ q i, s = .buffer q i → m.atEnds u q i) : Inv (m.setUser s u) := by
  refine { hi with rest := fun s' hs' => ?_, full := fun q i hs' => ?_, used := fun q i hs' => ?_ }
  · by_cases hss : s' = s
    · subst hss
      rw [setUser_self] at hs'
      exact absurd hs' hu
    · rw [setUser_ne hss] at hs'
      exact hi.rest s' hs'
  · by_cases hss : Slot.buffer q i = s
    · subst hss
      rw [setUser_self] at hs'
      exact absurd hs' hu
    · rw [setUser_ne hss] at hs'
      exact hi.full q i hs'
  · by_cases hss : Slot.buffer q i = s
    · subst hss
      rw [setUser_self]
      exact hq q i rfl
    · rw [setUser_ne hss] at hs' ⊢
      exact hi.used q i hs'

theorem Inv.setUser_release {a : Nat} (hi : Inv m) (hs : m.slot (.ref a) = m.val (.ref a)) :
    Inv (m.setUser (.ref a) 0) := by
  have hbuf : ∀ q i, (m.setUser (.ref a) 0).user (.buffer q i) = m.user (.buffer q i) :=
    fun q i => setUser_ne nofun
  refine { hi with rest := fun s' hs' => ?_, full := fun q i hs' => ?_, used := fun q i hs' => ?_ }
  · by_cases hss : s' = .ref a
    · subst hss
      exact hs
    · rw [setUser_ne hss] at hs'
      exact hi.rest s' hs'
  · exact hi.full q i hs'
  · exact hi.used q i hs'

theorem Inv.setEra (hi : Inv m) (hx : k = u ∨ (1 ≤ k → x ≤ m.posted k)) : Inv (m.setEra u k x) := by
  refine { hi with seen := fun j l hjl hl => ?_ }
  by_cases hjk : j = u ∧ l = k
  · obtain ⟨rfl, rfl⟩ := hjk
    rw [setEra_self]
    rcases hx with hx | hx
    · exact absurd hx.symm hjl
    · exact hx hl
  · rw [setEra_ne hjk]
    exact hi.seen j l hjl hl

/-- The CAS keeps the count of its object, and no other count has to do with it. -/
theorem Inv.count_cas (hi : Inv m) (hne : refed ≠ 0) (hval : m.val ref = kind.source refed)
    (ho : o ≠ 0) :
    tally (update m.val ref (kind.target refed)) o =
      if o = refed then kind.newCnt (m.refInfo refed).refCnt else (m.refInfo o).refCnt := by
  rw [hi.count o ho, hi.count refed hne]
  cases kind with
  | linkRef =>
    split
    · next heq =>
      subst heq
      exact tally_update_add hi.sparse ho (by rw [hval]; exact ho.symm)
    · next hno => exact tally_update_ne (by rw [hval]; exact ho.symm) (Ne.symm hno)
  | unlinkRef =>
    split
    · next heq =>
      subst heq
      have hdrop := tally_update_drop hi.sparse ho hval ho.symm
      simp only [Kind.newCnt, Kind.target]
      omega
    · next hno => exact tally_update_ne (by rw [hval]; exact Ne.symm hno) ho.symm

theorem Inv.cas (hi : Inv m) (hu : u ≠ 0) (hu' : u ≤ maxThread) (href : m.user ref = u)
    (hne : refed ≠ 0) (hval : m.val ref = kind.source refed)
    (hfit : kind.newCnt (m.refInfo refed).refCnt < 2 ^ 16) (hposted : m.posted u < m.era u u) :
    Inv (m.cas u kind ref refed (m.refInfo refed) (m.era u u)) := by
  have hother : ∀ s', m.user s' = 0 →
      (m.cas u kind ref refed (m.refInfo refed) (m.era u u)).val s' = m.val s' := by
    intro s' hs'
    refine cas_val_ne ?_
    rintro rfl
    exact hu (href.symm.trans hs')
  have hgrow : ∀ k, m.posted k ≤ (m.cas u kind ref refed (m.refInfo refed) (m.era u u)).posted k := by
    intro k
    by_cases hk : k = u
    · rw [hk, cas_posted_self]
      exact hposted.le
    · rw [cas_posted_ne hk]
  refine { hi with
    count := fun o ho => ?_, sparse := hi.sparse.update, rest := fun s' hs' => ?_,
    lenum := fun o ho => ?_, seen := fun j k hjk hk => (hi.seen j k hjk hk).trans (hgrow k),
    full := fun q i hs' => ?_ }
  · refine Eq.trans ?_ (hi.count_cas hne hval ho).symm
    split
    · next heq => rw [heq, cas_refInfo_self, packRefInfo_of_lt hu' hfit]
    · next hno => rw [cas_refInfo_ne hno]
  · rw [hother s' hs']
    exact hi.rest s' hs'
  · by_cases heq : o = refed
    · rw [heq, cas_refInfo_self, packRefInfo_of_lt hu' hfit, cas_posted_self]
    · rw [cas_refInfo_ne heq] at ho ⊢
      exact (hi.lenum o ho).trans (hgrow _)
  · rw [hother _ hs']
    exact hi.full q i hs'

theorem Inv.write (hi : Inv m) (hu : u ≠ 0) (h : m.user s = u) : Inv (m.setSlot s (m.val s)) := by
  refine { hi with rest := fun s' hs' => ?_ }
  refine (update_of_ne ?_ ..).trans (hi.rest s' hs')
  rintro rfl
  exact hu (h.symm.trans hs')

theorem Inv.free (hi : Inv m) (hcnt : (m.refInfo o).refCnt = 0) :
    Inv (m.setRefInfo o ⟨0, 0, 0⟩) := by
  have hself : (m.setRefInfo o ⟨0, 0, 0⟩).refInfo o = ⟨0, 0, 0⟩ := update_self ..
  have hother : ∀ o', o' ≠ o → (m.setRefInfo o ⟨0, 0, 0⟩).refInfo o' = m.refInfo o' :=
    fun o' ho' => update_of_ne ho' ..
  refine { hi with count := fun o' ho' => ?_, lenum := fun o' ho' => ?_ }
  · by_cases heq : o' = o
    · subst heq
      rw [hself, ← hcnt]
      exact hi.count o' ho'
    · rw [hother o' heq]
      exact hi.count o' ho'
  · by_cases heq : o' = o
    · subst heq
      rw [hself]
      exact Nat.zero_le _
    · rw [hother o' heq] at ho' ⊢
      exact hi.lenum o' ho'

/-- The place `p` is given back, and an end of its queue moves past it. -/
theorem Inv.giveBack {p : Nat} {start stop : Nat → Nat} (hi : Inv m)
    (hs : m.slot (.buffer q p) = m.val (.buffer q p))
    (hrest : ∀ q', q' ≠ q → start q' = m.qStart q' ∧ stop q' = m.qEnd q')
    (hring : start q < 16 ∧ stop q < 16)
    (hself : m.val (.buffer q p) ≠ 0 ↔ Mem.inRing { m with qStart := start, qEnd := stop } q p)
    (hfull : ∀ i, i ≠ p → (m.inRing q i ↔ Mem.inRing { m with qStart := start, qEnd := stop } q i))
    (hused : ∀ i w, i ≠ p → m.atEnds w q i →
      Mem.atEnds { m with qStart := start, qEnd := stop } w q i) :
    Inv { m.setUser (.buffer q p) 0 with qStart := start, qEnd := stop } := by
  have huser : ∀ q' i, (q' = q → i ≠ p) →
      (m.setUser (.buffer q p) 0).user (.buffer q' i) = m.user (.buffer q' i) := fun q' i hne =>
    setUser_ne fun h => hne (Slot.buffer.inj h).1 (Slot.buffer.inj h).2
  refine { hi with rest := fun s' hs' => ?_, ring := fun q' => ?_, full := fun q' i hs' => ?_,
                   used := fun q' i hs' => ?_ }
  · by_cases hss : s' = .buffer q p
    · subst hss
      exact hs
    · exact hi.rest s' ((setUser_ne hss).symm.trans hs')
  · by_cases hq : q' = q
    · subst hq
      exact hring
    · dsimp only
      rw [(hrest q' hq).1, (hrest q' hq).2]
      exact hi.ring q'
  · by_cases hq : q' = q
    · subst hq
      by_cases hip : i = p
      · subst hip
        exact hself
      · exact (hi.full q' i ((huser q' i fun _ => hip).symm.trans hs')).trans (hfull i hip)
    · refine (hi.full q' i ((huser q' i fun h => absurd h hq).symm.trans hs')).trans ?_
      simp only [Mem.inRing, hrest q' hq]
  · by_cases hq : q' = q
    · subst hq
      have hip : i ≠ p := by
        rintro rfl
        exact hs' setUser_self
      rw [huser q' i fun _ => hip] at hs' ⊢
      exact hused i _ hip (hi.used q' i hs')
    · rw [huser q' i fun h => absurd h hq] at hs' ⊢
      have hold := hi.used q' i hs'
      simp only [Mem.atEnds, Mem.nonempty, Mem.room, hrest q' hq] at hold ⊢
      exact hold

theorem Inv.sendNext (hi : Inv m) (hroom : m.room q)
    (hs : m.slot (.buffer q (m.qEnd q)) = m.val (.buffer q (m.qEnd q)))
    (hval : m.val (.buffer q (m.qEnd q)) ≠ 0) :
    Inv { m.setUser (.buffer q (m.qEnd q)) 0 with
      qEnd := update m.qEnd q ((m.qEnd q + 1) % messageBufferSize) } := by
  obtain ⟨hstart, hend⟩ := hi.ring q
  show Inv { m.setUser _ 0 with qStart := m.qStart, qEnd := _ }
  refine hi.giveBack hs (fun q' hq => ⟨rfl, update_of_ne hq ..⟩) ?_ ?_ (fun i hie => ?_)
    fun i w hie hold => ?_
  all_goals
    simp only [Mem.inRing, Mem.atEnds, Mem.nonempty, Mem.room, update_self,
      messageBufferSize] at *
  · omega
  · exact iff_of_true hval ⟨hend, by omega⟩
  · omega
  · -- the other party is the receiver
    obtain ⟨h1, h2, _⟩ | ⟨h1, _⟩ := hold
    · exact .inl ⟨h1, h2, Ne.symm hroom⟩
    · exact absurd h1 hie

theorem Inv.recvNext (hi : Inv m) (hnonempty : m.nonempty q)
    (hs : m.slot (.buffer q (m.qStart q)) = m.val (.buffer q (m.qStart q)))
    (hval : m.val (.buffer q (m.qStart q)) = 0) :
    Inv { m.setUser (.buffer q (m.qStart q)) 0 with
      qStart := update m.qStart q ((m.qStart q + 1) % messageBufferSize) } := by
  obtain ⟨hstart, hend⟩ := hi.ring q
  show Inv { m.setUser _ 0 with qStart := _, qEnd := m.qEnd }
  refine hi.giveBack hs (fun q' hq => ⟨update_of_ne hq .., rfl⟩) ?_ ?_ (fun i his => ?_)
    fun i w his hold => ?_
  all_goals
    simp only [Mem.inRing, Mem.atEnds, Mem.nonempty, Mem.room, update_self,
      messageBufferSize] at *
  · omega
  · exact iff_of_false (not_not.mpr hval) (by omega)
  · omega
  · -- the other party is the sender
    obtain ⟨h1, _⟩ | ⟨h1, h2, _⟩ := hold
    · exact absurd h1 his
    · exact .inr ⟨h1, h2, by omega⟩

theorem Move.inv (h : Move u m m') (hi : Inv m) : Inv m' := by
  cases h with
  | claim hu h _ hq => exact hi.setUser_claim hu h hq
  | release _ _ hs => exact hi.setUser_release hs
  | @pin b =>
    refine { hi with pinned := fun q i => ?_ }
    have hne : Slot.buffer q i ≠ .ref b := nofun
    exact hi.pinned q i
  | @unpin s =>
    refine { hi with pinned := fun q i => ?_ }
    by_cases hs : Slot.buffer q i = s
    · rw [← hs, unpin_self, hi.pinned q i]
      rfl
    · rw [unpin_ne hs]
      exact hi.pinned q i
  | note hk _ hx => exact hi.setEra (.inr hx)
  | log => exact { hi with }
  | cas hu hu' href hne hval _ hfit hposted _ =>
    exact hi.cas (Nat.pos_iff_ne_zero.mp hu) hu' href hne hval hfit hposted
  | write hu h => exact hi.write hu h
  | bump h => exact hi.setEra (.inl rfl)
  | free hcnt _ => exact hi.free hcnt
  | sendNext _ _ hroom hs hval => exact hi.sendNext hroom hs hval
  | recvNext _ _ hne hs hval => exact hi.recvNext hne hs hval

/-! ## What other threads leave alone -/

/-- Others can see that the last CAS of thread `t`, on object `o`, was made. -/
def Visible (t o : Nat) (m : Mem) : Prop :=
  (m.refInfo o).lcid = t ∧ (m.refInfo o).lenum = m.posted t ∨
    ∃ j, j ≠ t ∧ j ≤ maxThread ∧ m.posted t ≤ m.era j t

/-- What thread `w` relies on. -/
structure Kept (w : Nat) (m m' : Mem) : Prop where
  user : ∀ s, m'.user s = w ↔ m.user s = w
  mine : ∀ s, m.user s = w → m'.slot s = m.slot s ∧ m'.val s = m.val s
  pinned : ∀ s, m.user s = 0 → w ∈ m.pins s →
    m'.user s = 0 ∧ w ∈ m'.pins s ∧ m'.slot s = m.slot s ∧ m'.val s = m.val s
  era : m'.era w = m.era w
  posted : m'.posted w = m.posted w
  grow : ∀ k, m.posted k ≤ m'.posted k
  redo : m'.redo w = m.redo w
  senderId : m'.senderId = m.senderId
  receiverId : m'.receiverId = m.receiverId
  qEnd : ∀ q, m.senderId q = w → m'.qEnd q = m.qEnd q ∧ (m.room q → m'.room q) ∧
    (m.qEnd q + 1 ≠ m.qStart q → m'.qEnd q + 1 ≠ m'.qStart q)
  qStart : ∀ q, m.receiverId q = w → m'.qStart q = m.qStart q ∧ (m.nonempty q → m'.nonempty q)
  visible : ∀ o, Visible w o m → Visible w o m'
  dead : ∀ o, o ≠ 0 → (m.refInfo o).refCnt = 0 → (m.refInfo o).lcid = w →
    m'.refInfo o = m.refInfo o

theorem Kept.refl : Kept w m m :=
  ⟨fun _ => .rfl, fun _ _ => ⟨rfl, rfl⟩, fun _ h h' => ⟨h, h', rfl, rfl⟩, rfl, rfl, fun _ => le_rfl,
    rfl, rfl, rfl, fun _ _ => ⟨rfl, id, id⟩, fun _ _ => ⟨rfl, id⟩, fun _ h => h, fun _ _ _ _ => rfl⟩

theorem Kept.trans {m'' : Mem} (h : Kept w m m') (h' : Kept w m' m'') : Kept w m m'' where
  user s := (h'.user s).trans (h.user s)
  mine s hs := by
    obtain ⟨h1, h2⟩ := h.mine s hs
    obtain ⟨h3, h4⟩ := h'.mine s ((h.user s).mpr hs)
    exact ⟨h3.trans h1, h4.trans h2⟩
  pinned s hs hp := by
    obtain ⟨h1, h2, h3, h4⟩ := h.pinned s hs hp
    obtain ⟨h5, h6, h7, h8⟩ := h'.pinned s h1 h2
    exact ⟨h5, h6, h7.trans h3, h8.trans h4⟩
  era := h'.era.trans h.era
  posted := h'.posted.trans h.posted
  grow k := (h.grow k).trans (h'.grow k)
  redo := h'.redo.trans h.redo
  senderId := h'.senderId.trans h.senderId
  receiverId := h'.receiverId.trans h.receiverId
  qEnd q hq := by
    obtain ⟨h1, h2, h3⟩ := h.qEnd q hq
    obtain ⟨h4, h5, h6⟩ := h'.qEnd q (by rw [h.senderId]; exact hq)
    exact ⟨h4.trans h1, h5 ∘ h2, h6 ∘ h3⟩
  qStart q hq := by
    obtain ⟨h1, h2⟩ := h.qStart q hq
    obtain ⟨h3, h4⟩ := h'.qStart q (by rw [h.receiverId]; exact hq)
    exact ⟨h3.trans h1, h4 ∘ h2⟩
  visible o ho := h'.visible o (h.visible o ho)
  dead o hne hcnt hl := by
    have heq := h.dead o hne hcnt hl
    exact (h'.dead o hne (heq ▸ hcnt) (heq ▸ hl)).trans heq

theorem Kept.setUser (hw : w ≠ m.user s) (hx : x ≠ w) (hpin : m.user s = 0 → m.pins s = []) :
    Kept w m (m.setUser s x) := by
  refine { (Kept.refl : Kept w m m) with user := fun s' => ?_, pinned := fun s' h h' => ?_ }
  · by_cases hs : s' = s
    · rw [hs, setUser_self]
      exact iff_of_false hx (Ne.symm hw)
    · rw [setUser_ne hs]
  · have hs : s' ≠ s := by
      rintro rfl
      rw [hpin h] at h'
      cases h'
    rw [setUser_ne hs]
    exact ⟨h, h', rfl, rfl⟩

theorem Kept.setEra (hw : w ≠ u) (hle : k = u ∨ m.era u k ≤ x) : Kept w m (m.setEra u k x) := by
  refine { (Kept.refl : Kept w m m) with era := setEra_row hw, visible := fun o ho => ?_ }
  refine ho.imp_right fun ⟨j, hj, hj', hle'⟩ => ⟨j, hj, hj', ?_⟩
  by_cases hjk : j = u ∧ w = k
  · obtain ⟨rfl, rfl⟩ := hjk
    rw [setEra_self]
    rcases hle with hle | hle
    · exact absurd hle hw
    · exact hle'.trans hle
  · rw [setEra_ne hjk]
    exact hle'

/-- A thread that follows another one on an object has kept its era. -/
theorem Kept.cas (hi : Inv m) (hu : u ≠ 0) (hu' : u ≤ maxThread) (hw : w ≠ u)
    (href : m.user ref = u) (hne : refed ≠ 0) (hvia : ∃ via, m.val via = refed)
    (hposted : m.posted u < m.era u u)
    (hknown : (m.refInfo refed).lcid ≠ u → (m.refInfo refed).lenum ≤ m.era u (m.refInfo refed).lcid) :
    Kept w m (m.cas u kind ref refed (m.refInfo refed) (m.era u u)) := by
  refine { (Kept.refl : Kept w m m) with
    mine := fun s hs => ⟨rfl, cas_val_ne ?_⟩, pinned := fun s hs hp => ⟨hs, hp, rfl, cas_val_ne ?_⟩,
    posted := cas_posted_ne hw, grow := fun k => ?_, visible := fun o ho => ?_,
    dead := fun o ho hcnt hl => cas_refInfo_ne ?_ }
  · rintro rfl
    exact hw (hs.symm.trans href)
  · rintro rfl
    exact hu (href.symm.trans hs)
  · by_cases hk : k = u
    · rw [hk, cas_posted_self]
      exact hposted.le
    · rw [cas_posted_ne hk]
  · rw [Visible, cas_posted_ne hw]
    by_cases heq : o = refed
    · subst heq
      rcases ho with ⟨hl, he⟩ | ho
      · refine .inr ⟨u, Ne.symm hw, hu', ?_⟩
        have hle := hknown (by rw [hl]; exact hw)
        rw [hl, he] at hle
        exact hle
      · exact .inr ho
    · rw [cas_refInfo_ne heq]
      exact ho
  · rintro rfl
    obtain ⟨via, hvia⟩ := hvia
    have hpos := tally_pos hi.sparse hne hvia
    rw [← hi.count o hne, hcnt] at hpos
    exact absurd hpos (Nat.lt_irrefl 0)

theorem Move.kept (h : Move u m m') (hi : Inv m) (hw : w ≠ u) (hw0 : w ≠ 0) : Kept w m m' := by
  cases h with
  | claim hu h hp _ => exact .setUser (h ▸ hw0) (Ne.symm hw) fun _ => hp
  | release hu h _ => exact .setUser (h ▸ hw) hw0.symm fun h0 => absurd (h.symm.trans h0) hu
  | @pin b =>
    refine { (Kept.refl : Kept w m m) with pinned := fun s h h' => ⟨h, ?_, rfl, rfl⟩ }
    by_cases hs : s = .ref b
    · subst hs
      rw [pin_self]
      exact .tail _ h'
    · rw [pin_ne hs]
      exact h'
  | @unpin t =>
    refine { (Kept.refl : Kept w m m) with pinned := fun s h h' => ⟨h, ?_, rfl, rfl⟩ }
    by_cases hs : s = t
    · subst hs
      rw [unpin_self]
      exact (List.mem_erase_of_ne hw).mpr h'
    · rw [unpin_ne hs]
      exact h'
  | note _ hle _ => exact .setEra hw (.inr hle)
  | log => exact { (Kept.refl : Kept w m m) with redo := update_of_ne hw .. }
  | cas hu hu' href hne _ hvia _ hposted hknown =>
    exact .cas hi (Nat.pos_iff_ne_zero.mp hu) hu' hw href hne hvia hposted hknown
  | write hu h =>
    refine { (Kept.refl : Kept w m m) with
      mine := fun s hs => ⟨update_of_ne ?_ .., rfl⟩,
      pinned := fun s hs hp => ⟨hs, hp, update_of_ne ?_ .., rfl⟩ }
    · rintro rfl
      exact hw (hs.symm.trans h)
    · rintro rfl
      exact hu (h.symm.trans hs)
  | bump _ => exact .setEra hw (.inl rfl)
  | @free o hcnt hl =>
    have hother : ∀ o', o' ≠ o → (m.setRefInfo o ⟨0, 0, 0⟩).refInfo o' = m.refInfo o' :=
      fun o' ho' => update_of_ne ho' ..
    refine { (Kept.refl : Kept w m m) with
      visible := fun o' ho' => ?_, dead := fun o' _ _ hl' => hother o' ?_ }
    · rcases ho' with ⟨hl', he⟩ | ho'
      · refine .inl ?_
        rw [hother o']
        · exact ⟨hl', he⟩
        · rintro rfl
          exact hw (hl'.symm.trans hl)
      · exact .inr ho'
    · rintro rfl
      exact hw (hl'.symm.trans hl)
  | @sendNext q h hsend hroom _ _ =>
    have hset : Kept w m (m.setUser (.buffer q (m.qEnd q)) 0) :=
      .setUser (h ▸ hw) hw0.symm fun _ => hi.pinned ..
    refine { hset with qEnd := fun q' hq' => ?_, qStart := fun q' _ => ⟨rfl, fun hne => ?_⟩ }
    · have hqq : q' ≠ q := by
        rintro rfl
        exact hw (hq'.symm.trans hsend)
      simp only [Mem.room, update_of_ne hqq]
      exact ⟨trivial, id, id⟩
    · by_cases hqq : q' = q
      · subst hqq
        simp only [Mem.nonempty, update_self, messageBufferSize]
        exact Ne.symm hroom
      · simp only [Mem.nonempty, update_of_ne hqq]
        exact hne
  | @recvNext q h hrecv hne _ _ =>
    have hset : Kept w m (m.setUser (.buffer q (m.qStart q)) 0) :=
      .setUser (h ▸ hw) hw0.symm fun _ => hi.pinned ..
    refine { hset with
      qEnd := fun q' _ => ⟨rfl, fun hroom => ?_, fun hroom => ?_⟩, qStart := fun q' hq' => ?_ }
    · obtain ⟨hstart, hend⟩ := hi.ring q'
      by_cases hqq : q' = q
      · subst hqq
        simp only [Mem.room, update_self, messageBufferSize]
        rw [Mem.nonempty] at hne
        show (m.qEnd q' + 1) % 16 ≠ (m.qStart q' + 1) % 16
        omega
      · simp only [Mem.room, update_of_ne hqq]
        exact hroom
    · obtain ⟨hstart, hend⟩ := hi.ring q'
      by_cases hqq : q' = q
      · subst hqq
        simp only [update_self, messageBufferSize]
        rw [Mem.nonempty] at hne
        show m.qEnd q' + 1 ≠ (m.qStart q' + 1) % 16
        omega
      · simp only [update_of_ne hqq]
        exact hroom
    · have hqq : q' ≠ q := by
        rintro rfl
        exact hw (hq'.symm.trans hrecv)
      simp only [Mem.nonempty, update_of_ne hqq]
      exact ⟨trivial, id⟩

end ShmPcc.CxlRefCount
