import ShmPcc.Proofs.CxlRefCountInv

/-!
# Recovery of the reference counts

What a thread knows at each point of its operations, the runs, and what
`redo_ref_cnt` makes of the memory when a thread has stopped. At that time a slot
that nobody works on holds what the counts say. The slot the stopped thread was
working on is behind only between its CAS and its write, and then the newest record
is the one of this operation, and its era shows in the count or in the row of a
thread that has changed the count since.

The record stays when the operation is done. Replayed then, it writes to a slot that
may have been emptied or filled again in the meantime.
-/

namespace ShmPcc.CxlRefCount

open Function

variable {m m' : Mem} {u w q i o t : Nat} {s : Slot} {c : Call} {info : RefInfo}

/-! ## What a thread knows -/

/-- The slots thread `u` works on. -/
def Own (u : Nat) (l : List Slot) (m : Mem) : Prop := ∀ s, m.user s = u ↔ s ∈ l

def Settled (u : Nat) (m : Mem) : Prop := ∀ s, m.user s = u → m.slot s = m.val s

/-- The slot that the object is linked from keeps it. -/
def Guard (u : Nat) (via : Slot) (o : Nat) (m : Mem) : Prop :=
  m.val via = o ∧ (m.user via = u ∨ m.user via = 0 ∧ u ∈ m.pins via)

/-- The receiver has claimed the place at the start of the queue. -/
structure Receiving (u q : Nat) (l : List Slot) (m : Mem) : Prop where
  own : Own u (.buffer q (m.qStart q) :: l) m
  recv : m.receiverId q = u
  nonempty : m.nonempty q

/-- The sender has claimed the place at the end of the queue. -/
structure Sending (u q : Nat) (m : Mem) : Prop where
  own : Own u [.buffer q (m.qEnd q)] m
  send : m.senderId q = u
  room : m.room q

/-- Where the call leaves the thread. -/
def Next.After (u : Nat) (m : Mem) : Next → Prop
  | .done => Own u [] m
  | .sent q => Sending u q m ∧ m.val (.buffer q (m.qEnd q)) ≠ 0
  | .got q => Receiving u q [] m ∧ m.val (.buffer q (m.qStart q)) ≠ 0
  | .emptied q => Receiving u q [] m ∧ m.val (.buffer q (m.qStart q)) = 0

def Next.During (u : Nat) (c : Call) (m : Mem) : Next → Prop
  | .done => Own u [c.ref] m ∧ ∃ a, c.ref = .ref a
  | .sent q => Sending u q m ∧ c.ref = .buffer q (m.qEnd q) ∧ c.kind = .linkRef
  | .got q => Receiving u q [c.ref] m ∧ (∃ a, c.ref = .ref a) ∧ c.kind = .linkRef ∧
      c.via = .buffer q (m.qStart q)
  | .emptied q => Receiving u q [] m ∧ c.ref = .buffer q (m.qStart q) ∧ c.kind = .unlinkRef

structure Calling (u : Nat) (c : Call) (m : Mem) : Prop where
  refed : c.refed ≠ 0
  link : c.kind = .linkRef → Guard u c.via c.refed m
  next : c.next.During u c m

/-- The CAS is still to come. -/
structure Before (u : Nat) (c : Call) (m : Mem) : Prop extends Calling u c m where
  val : m.val c.ref = c.kind.source c.refed
  settled : Settled u m

def recordOf (c : Call) (info : RefInfo) (e : Nat) : RedoLog :=
  ⟨some c.kind, info.refCnt, e, c.ref, c.refed⟩

/-- The CAS is made. -/
structure Posted (u : Nat) (c : Call) (info : RefInfo) (m : Mem) : Prop extends Calling u c m where
  val : m.val c.ref = c.kind.target c.refed
  pos : m.era u u ≠ 0
  record : m.redo u (m.era u u % redoCachelineCnt) = recordOf c info (m.era u u)
  visible : Visible u c.refed m
  last : c.kind = .unlinkRef → info.refCnt = 1 →
    (m.refInfo c.refed).refCnt = 0 ∧ (m.refInfo c.refed).lcid = u

def Pc.At (u : Nat) (m : Mem) : Pc → Prop
  | .idle => Own u [] m
  | .sendRead q tbr =>
    Own u [] m ∧ m.senderId q = u ∧ m.slot tbr ≠ 0 ∧ m.user tbr = 0 ∧ u ∈ m.pins tbr
  | .sendFull q offset tbr => Own u [] m ∧ m.senderId q = u ∧ offset ≠ 0 ∧ Guard u tbr offset m
  | .sendWrap q offset tbr => Own u [] m ∧ m.senderId q = u ∧ offset ≠ 0 ∧ Guard u tbr offset m ∧
      m.qEnd q + 1 ≠ m.qStart q
  | .sendNext q => Next.After u m (.sent q) ∧ Settled u m
  | .recvEmpty q a _ => Own u [.ref a] m ∧ m.receiverId q = u ∧ m.val (.ref a) = 0 ∧ Settled u m
  | .recvSlot q a _ => Own u [.ref a] m ∧ m.receiverId q = u ∧ m.val (.ref a) = 0 ∧ Settled u m ∧
      m.nonempty q
  | .clear q a _ | .recvRead q a => Receiving u q [.ref a] m ∧ m.val (.ref a) = 0 ∧ Settled u m ∧
      m.val (.buffer q (m.qStart q)) ≠ 0
  | .recvAgain q => Next.After u m (.got q) ∧ Settled u m
  | .recvNext q => Next.After u m (.emptied q) ∧ Settled u m
  | .load c => Before u c m
  | .note c info => Before u c m ∧ (1 ≤ info.lcid → info.lenum ≤ m.posted info.lcid)
  | .record c info => Before u c m ∧ (info.lcid ≠ u → info.lenum ≤ m.era u info.lcid)
  | .cas c info curEra => Before u c m ∧ (info.lcid ≠ u → info.lenum ≤ m.era u info.lcid) ∧
      curEra = m.era u u ∧ m.redo u (curEra % redoCachelineCnt) = recordOf c info curEra
  | .write c info => Posted u c info m ∧ m.slot c.ref = c.kind.source c.refed ∧
      ∀ s, m.user s = u → s ≠ c.ref → m.slot s = m.val s
  | .bump c info => Posted u c info m ∧ Settled u m
  | .free c => c.next.After u m ∧ Settled u m ∧ c.refed ≠ 0 ∧ (m.refInfo c.refed).refCnt = 0 ∧
      (m.refInfo c.refed).lcid = u

/-- The CAS is made and the era not yet passed. -/
def Pc.past : Pc → Bool
  | .write .. | .bump .. => true
  | _ => false

/-- Record `i` is of an era that belongs there, and of none to come. -/
def Logged (u : Nat) (m : Mem) : Prop :=
  ∀ i, (m.redo u i).curEra ≤ m.era u u ∧
    ((m.redo u i).curEra = 0 ∨ (m.redo u i).curEra % redoCachelineCnt = i)

structure Pc.Holds (u : Nat) (pc : Pc) (m : Mem) : Prop where
  ids : u = 0 ∨ maxThread < u → pc = .idle
  logged : u ≠ 0 → Logged u m
  posted : u ≠ 0 → if pc.past then m.posted u = m.era u u else m.posted u < m.era u u
  here : u ≠ 0 → pc.At u m

/-! ### None of it is disturbed -/

variable {l : List Slot}

theorem Own.kept (h : Own w l m) (hk : Kept w m m') : Own w l m' :=
  fun s => (hk.user s).trans (h s)

theorem Settled.kept (h : Settled w m) (hk : Kept w m m') : Settled w m' := by
  intro s hs
  have hs' := (hk.user s).mp hs
  obtain ⟨h1, h2⟩ := hk.mine s hs'
  rw [h1, h2]
  exact h s hs'

theorem Guard.kept {via : Slot} (h : Guard w via o m) (hk : Kept w m m') : Guard w via o m' := by
  obtain ⟨hval, hown | ⟨h0, hpin⟩⟩ := h
  · exact ⟨(hk.mine via hown).2.trans hval, .inl ((hk.user via).mpr hown)⟩
  · obtain ⟨h1, h2, _, h4⟩ := hk.pinned via h0 hpin
    exact ⟨h4.trans hval, .inr ⟨h1, h2⟩⟩

theorem Receiving.kept (h : Receiving w q l m) (hk : Kept w m m') : Receiving w q l m' := by
  obtain ⟨h1, h2⟩ := hk.qStart q h.recv
  exact ⟨h1.symm ▸ h.own.kept hk, by rw [hk.receiverId]; exact h.recv, h2 h.nonempty⟩

theorem Receiving.val_kept (h : Receiving w q l m) (hk : Kept w m m') :
    m'.val (.buffer q (m'.qStart q)) = m.val (.buffer q (m.qStart q)) := by
  rw [(hk.qStart q h.recv).1]
  exact (hk.mine _ ((h.own _).mpr (.head _))).2

theorem Sending.kept (h : Sending w q m) (hk : Kept w m m') : Sending w q m' := by
  obtain ⟨h1, h2, _⟩ := hk.qEnd q h.send
  exact ⟨h1.symm ▸ h.own.kept hk, by rw [hk.senderId]; exact h.send, h2 h.room⟩

theorem Sending.val_kept (h : Sending w q m) (hk : Kept w m m') :
    m'.val (.buffer q (m'.qEnd q)) = m.val (.buffer q (m.qEnd q)) := by
  rw [(hk.qEnd q h.send).1]
  exact (hk.mine _ ((h.own _).mpr (.head _))).2

variable {next : Next}

theorem Next.After.kept (h : next.After w m) (hk : Kept w m m') : next.After w m' := by
  cases next with
  | done => exact Own.kept h hk
  | sent q | got q | emptied q => exact ⟨h.1.kept hk, (h.1.val_kept hk).symm ▸ h.2⟩

theorem Next.During.kept (h : next.During w c m) (hk : Kept w m m') : next.During w c m' := by
  cases next with
  | done => exact ⟨h.1.kept hk, h.2⟩
  | sent q =>
    refine ⟨h.1.kept hk, ?_, h.2.2⟩
    rw [(hk.qEnd q h.1.send).1]
    exact h.2.1
  | got q =>
    refine ⟨h.1.kept hk, h.2.1, h.2.2.1, ?_⟩
    rw [(hk.qStart q h.1.recv).1]
    exact h.2.2.2
  | emptied q =>
    refine ⟨h.1.kept hk, ?_, h.2.2⟩
    rw [(hk.qStart q h.1.recv).1]
    exact h.2.1

/-- The owners of slots and the queues are all a call in progress asks for. -/
theorem Next.During.congr (h : next.During u c m) (huser : m'.user = m.user)
    (hstart : m'.qStart = m.qStart) (hend : m'.qEnd = m.qEnd) (hsend : m'.senderId = m.senderId)
    (hrecv : m'.receiverId = m.receiverId) : next.During u c m' := by
  have hown : ∀ l, Own u l m → Own u l m' := fun l hl s => huser ▸ hl s
  have hsending : ∀ q, Sending u q m → Sending u q m' := by
    intro q hq
    refine ⟨hown _ (hend.symm ▸ hq.own), hsend.symm ▸ hq.send, ?_⟩
    rw [Mem.room, hend, hstart]
    exact hq.room
  have hreceiving : ∀ q l, Receiving u q l m → Receiving u q l m' := by
    intro q l hq
    refine ⟨hown _ (hstart.symm ▸ hq.own), hrecv.symm ▸ hq.recv, ?_⟩
    rw [Mem.nonempty, hend, hstart]
    exact hq.nonempty
  cases next with
  | done => exact ⟨hown _ h.1, h.2⟩
  | sent q => exact ⟨hsending q h.1, hend.symm ▸ h.2.1, h.2.2⟩
  | got q => exact ⟨hreceiving q _ h.1, h.2.1, h.2.2.1, hstart.symm ▸ h.2.2.2⟩
  | emptied q => exact ⟨hreceiving q _ h.1, hstart.symm ▸ h.2.1, h.2.2⟩

theorem Calling.user (h : Calling u c m) : m.user c.ref = u := by
  have hnext := h.next
  cases hn : c.next with
  | done =>
    rw [hn] at hnext
    exact (hnext.1 _).mpr (.head _)
  | sent q | emptied q =>
    rw [hn] at hnext
    rw [hnext.2.1]
    exact (hnext.1.own _).mpr (.head _)
  | got q =>
    rw [hn] at hnext
    exact (hnext.1.own _).mpr (.tail _ (.head _))

theorem Calling.kept (h : Calling w c m) (hk : Kept w m m') : Calling w c m' :=
  ⟨h.refed, fun hkind => (h.link hkind).kept hk, h.next.kept hk⟩

theorem Before.kept (h : Before w c m) (hk : Kept w m m') : Before w c m' :=
  ⟨h.toCalling.kept hk, (hk.mine _ h.user).2.trans h.val, h.settled.kept hk⟩

theorem Posted.kept (h : Posted w c info m) (hk : Kept w m m') : Posted w c info m' := by
  refine ⟨h.toCalling.kept hk, (hk.mine _ h.user).2.trans h.val, ?_, ?_, hk.visible _ h.visible,
    fun hkind hcnt => ?_⟩
  · rw [hk.era]
    exact h.pos
  · rw [hk.era, hk.redo]
    exact h.record
  · obtain ⟨h1, h2⟩ := h.last hkind hcnt
    rw [hk.dead _ h.refed h1 h2]
    exact ⟨h1, h2⟩

variable {pc : Pc}

theorem Pc.At.kept (h : pc.At w m) (hk : Kept w m m') : pc.At w m' := by
  cases pc with
  | idle => exact Own.kept h hk
  | sendRead q tbr =>
    obtain ⟨h1, h2, h3, h4, h5⟩ := h
    obtain ⟨h6, h7, h8, _⟩ := hk.pinned tbr h4 h5
    exact ⟨h1.kept hk, by rw [hk.senderId]; exact h2, h8.symm ▸ h3, h6, h7⟩
  | sendFull q offset tbr =>
    obtain ⟨h1, h2, h3, h4⟩ := h
    exact ⟨h1.kept hk, by rw [hk.senderId]; exact h2, h3, h4.kept hk⟩
  | sendWrap q offset tbr =>
    obtain ⟨h1, h2, h3, h4, h5⟩ := h
    exact ⟨h1.kept hk, by rw [hk.senderId]; exact h2, h3, h4.kept hk, (hk.qEnd q h2).2.2 h5⟩
  | sendNext q | recvAgain q | recvNext q | bump c info => exact ⟨h.1.kept hk, h.2.kept hk⟩
  | recvEmpty q a generic =>
    obtain ⟨h1, h2, h3, h4⟩ := h
    have hval := (hk.mine _ ((h1 _).mpr (.head _))).2
    exact ⟨h1.kept hk, by rw [hk.receiverId]; exact h2, hval.trans h3, h4.kept hk⟩
  | recvSlot q a generic =>
    obtain ⟨h1, h2, h3, h4, h5⟩ := h
    have hval := (hk.mine _ ((h1 _).mpr (.head _))).2
    exact ⟨h1.kept hk, by rw [hk.receiverId]; exact h2, hval.trans h3, h4.kept hk,
      (hk.qStart q h2).2 h5⟩
  | clear q a k | recvRead q a =>
    obtain ⟨h1, h2, h3, h4⟩ := h
    have hval := (hk.mine (.ref a) ((h1.own _).mpr (by simp))).2
    exact ⟨h1.kept hk, hval.trans h2, h3.kept hk, (h1.val_kept hk).symm ▸ h4⟩
  | load c => exact Before.kept h hk
  | note c info => exact ⟨h.1.kept hk, fun hl => (h.2 hl).trans (hk.grow _)⟩
  | record c info => exact ⟨h.1.kept hk, by rw [hk.era]; exact h.2⟩
  | cas c info curEra =>
    refine ⟨h.1.kept hk, ?_⟩
    rw [hk.era, hk.redo]
    exact h.2
  | write c info =>
    obtain ⟨h1, h2, h3⟩ := h
    refine ⟨h1.kept hk, (hk.mine _ h1.user).1.trans h2, fun s hs hne => ?_⟩
    have hs' := (hk.user s).mp hs
    obtain ⟨h4, h5⟩ := hk.mine s hs'
    rw [h4, h5]
    exact h3 s hs' hne
  | free c =>
    obtain ⟨h1, h2, h3, h4, h5⟩ := h
    refine ⟨h1.kept hk, h2.kept hk, h3, ?_⟩
    rw [hk.dead _ h3 h4 h5]
    exact ⟨h4, h5⟩

theorem Pc.Holds.kept (h : pc.Holds w m) (hk : w ≠ 0 → Kept w m m') : pc.Holds w m' := by
  refine ⟨h.ids, fun hw => ?_, fun hw => ?_, fun hw => (h.here hw).kept (hk hw)⟩
  · intro i
    rw [(hk hw).era, (hk hw).redo]
    exact h.logged hw i
  · rw [(hk hw).era, (hk hw).posted]
    exact h.posted hw

/-! ## The steps of a thread -/

/-- What one step of a thread does is a sequence of changes. -/
def Moves (u : Nat) : Mem → Mem → Prop := Relation.ReflTransGen (Move u)

theorem Moves.inv (h : Moves u m m') (hi : Inv m) : Inv m' := by
  induction h with
  | refl => exact hi
  | tail _ hmove ih => exact hmove.inv ih

theorem Moves.kept (h : Moves u m m') (hi : Inv m) (hw : w ≠ u) (hw0 : w ≠ 0) : Kept w m m' := by
  induction h with
  | refl => exact .refl
  | tail hsteps hmove ih => exact ih.trans (hmove.kept (Moves.inv hsteps hi) hw hw0)

theorem Own.claim (h : Own u l m) : Own u (s :: l) (m.setUser s u) := by
  intro t
  rw [List.mem_cons]
  by_cases ht : t = s
  · rw [ht, setUser_self]
    exact iff_of_true rfl (.inl rfl)
  · rw [setUser_ne ht, h t]
    simp [ht]

theorem Own.release (h : Own u (s :: l) m) (hs : s ∉ l) (hu : u ≠ 0) : Own u l (m.setUser s 0) := by
  intro t
  by_cases ht : t = s
  · rw [ht, setUser_self]
    exact iff_of_false hu.symm hs
  · rw [setUser_ne ht, h t]
    simp [ht]

theorem Own.head (h : Own u (s :: l) m) : m.user s = u :=
  (h s).mpr (.head _)

theorem Settled.claim (hi : Inv m) (h : Settled u m) (hs : m.user s = 0) :
    Settled u (m.setUser s u) := by
  intro t ht
  by_cases hts : t = s
  · rw [hts]
    exact hi.rest s hs
  · rw [setUser_ne hts] at ht
    exact h t ht

theorem Settled.release {x : Nat} (h : Settled u m) (hx : x ≠ u) : Settled u (m.setUser s x) := by
  intro t ht
  have hts : t ≠ s := by
    rintro rfl
    rw [setUser_self] at ht
    exact hx ht
  rw [setUser_ne hts] at ht
  exact h t ht

/-- A place in a queue is free for the party at whose end it is. -/
theorem Inv.user_end (hi : Inv m) (hown : Own u l m) (hsend : m.senderId q = u)
    (hl : Slot.buffer q (m.qEnd q) ∉ l) : m.user (.buffer q (m.qEnd q)) = 0 := by
  by_contra hne
  rcases hi.used q _ hne with ⟨h1, _, h3⟩ | ⟨_, h2, _⟩
  · exact h3 h1.symm
  · exact hl ((hown _).mp (h2.symm.trans hsend))

theorem Inv.user_start (hi : Inv m) (hown : Own u l m) (hrecv : m.receiverId q = u)
    (hne : m.nonempty q) (hl : Slot.buffer q (m.qStart q) ∉ l) :
    m.user (.buffer q (m.qStart q)) = 0 := by
  by_contra hne'
  rcases hi.used q _ hne' with ⟨_, h2, _⟩ | ⟨h1, _, _⟩
  · exact hl ((hown _).mp (h2.symm.trans hrecv))
  · exact hne h1

theorem Guard.setUser {via : Slot} (h : Guard u via o m) (hs : m.user s = 0) (hpin : m.pins s = [])
    (hu : u ≠ 0) {x : Nat} : Guard u via o (m.setUser s x) := by
  have hne : via ≠ s := by
    rintro rfl
    rcases h.2 with h' | h'
    · exact hu (h'.symm.trans hs)
    · have := h'.2
      rw [hpin] at this
      cases this
  refine ⟨h.1, ?_⟩
  rw [setUser_ne hne]
  exact h.2

theorem Next.pc_at (h : next.After u m) (hs : Settled u m) : next.pc.At u m := by
  cases next with
  | done => exact h
  | sent q => exact ⟨h, hs⟩
  | got q => exact ⟨h, hs⟩
  | emptied q => exact ⟨h, hs⟩

theorem Next.pc_past : next.pc.past = false := by
  cases next <;> rfl

/-- A step that leaves the thread's eras and records as they are. -/
theorem Pc.Holds.step {pc' : Pc} (h : pc.Holds u m) (hpc : pc ≠ .idle)
    (hera : m'.era u u = m.era u u) (hredo : m'.redo u = m.redo u)
    (hposted : m'.posted u = m.posted u) (hpast : pc'.past = pc.past) (hat : pc'.At u m') :
    pc'.Holds u m' := by
  refine ⟨fun hu => absurd (h.ids hu) hpc, fun hu i => ?_, fun hu => ?_, fun _ => hat⟩
  · rw [hera, hredo]
    exact h.logged hu i
  · rw [hera, hposted, hpast]
    exact h.posted hu

theorem send_claim {offset : Nat} {tbr : Slot} (hi : Inv m) (hu : u ≠ 0)
    (hat : (Pc.sendWrap q offset tbr).At u m)
    (hfull : (m.qEnd q + 2 ^ 64 - m.qStart q) % 2 ^ 64 ≠ messageBufferSize - 1) :
    Move u m (m.setUser (.buffer q (m.qEnd q)) u) ∧
      Before u ⟨.linkRef, .buffer q (m.qEnd q), offset, tbr, .sent q⟩
        (m.setUser (.buffer q (m.qEnd q)) u) := by
  obtain ⟨hown, hsend, hne, hguard, hnext⟩ := hat
  obtain ⟨hstart, hend⟩ := hi.ring q
  have hroom : m.room q := by
    rw [Mem.room]
    rw [messageBufferSize] at hfull
    omega
  have hfree := hi.user_end hown hsend (by simp)
  have hempty : m.val (.buffer q (m.qEnd q)) = 0 := by
    have := (hi.full q _ hfree).not.mpr fun h => Nat.lt_irrefl _ h.2
    exact not_not.mp this
  have hnone : Settled u m := by
    intro s hs
    cases (hown s).mp hs
  refine ⟨.claim hu hfree (hi.pinned ..) fun q' i heq => ?_,
    ⟨hne, fun _ => hguard.setUser hfree (hi.pinned ..) hu, ⟨hown.claim, hsend, hroom⟩, rfl, rfl⟩,
    hempty, hnone.claim hi hfree⟩
  obtain ⟨rfl, rfl⟩ := Slot.buffer.inj heq
  exact .inr ⟨rfl, hsend, hroom⟩

theorem recv_claim {a : Nat} {generic : Bool} (hi : Inv m) (hu : u ≠ 0)
    (hat : (Pc.recvSlot q a generic).At u m) (hslot : m.slot (.buffer q (m.qStart q)) ≠ 0) :
    Move u m (m.setUser (.buffer q (m.qStart q)) u) ∧
      (Pc.recvRead q a).At u (m.setUser (.buffer q (m.qStart q)) u) := by
  obtain ⟨hown, hrecv, hval, hsettled, hne⟩ := hat
  have hfree := hi.user_start hown hrecv hne (by simp)
  refine ⟨.claim hu hfree (hi.pinned ..) fun q' i heq => ?_, ⟨hown.claim, hrecv, hne⟩, hval,
    hsettled.claim hi hfree, ?_⟩
  · obtain ⟨rfl, rfl⟩ := Slot.buffer.inj heq
    exact .inl ⟨rfl, hrecv, hne⟩
  · rw [hi.rest _ hfree] at hslot
    exact hslot

theorem cas_moves {e : Nat} (hpc : (Pc.cas c (m.refInfo c.refed) e).Holds u m)
    (hfit : (Pc.cas c (m.refInfo c.refed) e).fits = true) :
    Move u m (m.cas u c.kind c.ref c.refed (m.refInfo c.refed) e) ∧
      (Pc.write c (m.refInfo c.refed)).Holds u (m.cas u c.kind c.ref c.refed (m.refInfo c.refed) e) := by
  have hids : ¬ (u = 0 ∨ maxThread < u) := fun h => nomatch hpc.ids h
  have hu : u ≠ 0 := fun h => hids (.inl h)
  have hu' : u ≤ maxThread := Nat.not_lt.mp fun h => hids (.inr h)
  have hposted : m.posted u < m.era u u := hpc.posted hu
  have hcnt : c.kind.newCnt (m.refInfo c.refed).refCnt < 2 ^ 16 := of_decide_eq_true hfit
  obtain ⟨hbefore, hknown, rfl, hrecord⟩ := hpc.here hu
  have hvia : ∃ via, m.val via = c.refed := by
    cases hkind : c.kind with
    | linkRef => exact ⟨c.via, (hbefore.link hkind).1⟩
    | unlinkRef =>
      refine ⟨c.ref, ?_⟩
      rw [hbefore.val, hkind]
      rfl
  have hself : (m.cas u c.kind c.ref c.refed (m.refInfo c.refed) (m.era u u)).refInfo c.refed =
      ⟨u, c.kind.newCnt (m.refInfo c.refed).refCnt, m.era u u⟩ := by
    rw [cas_refInfo_self, packRefInfo_of_lt hu' hcnt]
  refine ⟨.cas (Nat.pos_of_ne_zero hu) hu' hbefore.user hbefore.refed hbefore.val hvia hcnt hposted
    hknown, fun h => absurd h hids, hpc.logged, fun _ => ?_, fun _ => ?_⟩
  · exact cas_posted_self
  · refine ⟨⟨⟨hbefore.refed, fun hkind => ?_, hbefore.next.congr rfl rfl rfl rfl rfl⟩, cas_val_self,
      Nat.ne_of_gt (Nat.zero_lt_of_lt hposted), hrecord, .inl ?_,
      fun hkind hone => ?_⟩, ?_, fun s hs hne => ?_⟩
    · -- the slot it is linked from is another one, for it holds the object
      refine ⟨(cas_val_ne ?_).trans (hbefore.link hkind).1, (hbefore.link hkind).2⟩
      intro heq
      have hval := hbefore.val
      rw [hkind, ← heq, (hbefore.link hkind).1] at hval
      exact hbefore.refed hval
    · rw [hself, cas_posted_self]
      exact ⟨rfl, rfl⟩
    · rw [hself, hkind, hone]
      exact ⟨rfl, rfl⟩
    · exact (hbefore.settled _ hbefore.user).trans hbefore.val
    · rw [cas_val_ne hne]
      exact hbefore.settled s hs

/-- The end of a call: the era moves on, and the slot is given back unless it is in a
queue. -/
theorem bump_moves (hu : u ≠ 0) (hposted : m.posted u = m.era u u) (h : Posted u c info m)
    (hs : Settled u m) :
    Moves u m ((m.setEra u u (m.era u u + 1)).finish u c) ∧
      c.next.After u ((m.setEra u u (m.era u u + 1)).finish u c) ∧
      Settled u ((m.setEra u u (m.era u u + 1)).finish u c) := by
  have hmove : Moves u m ((m.setEra u u (m.era u u + 1)).unpin u c.via) :=
    (Relation.ReflTransGen.single (.bump hposted)).tail .unpin
  have hslot := hs _ h.user
  have hnext := h.next
  have hval := h.val
  cases hn : c.next with
  | done =>
    rw [hn] at hnext
    obtain ⟨hown, a, ha⟩ := hnext
    rw [Mem.finish, hn, ha]
    rw [ha] at hown hslot
    exact ⟨hmove.tail (.release hu hown.head hslot), Own.release hown nofun hu,
      Settled.release hs hu.symm⟩
  | sent q =>
    rw [hn] at hnext
    obtain ⟨hsend, href, hkind⟩ := hnext
    rw [Mem.finish, hn]
    refine ⟨hmove, ⟨⟨hsend.own, hsend.send, hsend.room⟩, ?_⟩, hs⟩
    show m.val (.buffer q (m.qEnd q)) ≠ 0
    rw [← href, hval, hkind]
    exact h.refed
  | got q =>
    rw [hn] at hnext
    obtain ⟨hrecv, ⟨a, ha⟩, hkind, hvia⟩ := hnext
    have hown : Own u [.ref a, .buffer q (m.qStart q)] m := by
      intro s
      rw [hrecv.own s, ha]
      simp [or_comm]
    rw [Mem.finish, hn, ha]
    rw [ha] at hslot
    refine ⟨hmove.tail (.release hu hown.head hslot),
      ⟨⟨Own.release hown (by simp) hu, hrecv.recv, hrecv.nonempty⟩, ?_⟩,
      Settled.release hs hu.symm⟩
    show m.val (.buffer q (m.qStart q)) ≠ 0
    rw [← hvia, (h.link hkind).1]
    exact h.refed
  | emptied q =>
    rw [hn] at hnext
    obtain ⟨hrecv, href, hkind⟩ := hnext
    rw [Mem.finish, hn]
    refine ⟨hmove, ⟨⟨hrecv.own, hrecv.recv, hrecv.nonempty⟩, ?_⟩, hs⟩
    show m.val (.buffer q (m.qStart q)) = 0
    rw [← href, hval, hkind]
    rfl

/-- Eras and records are no matter for a call whose CAS is still to come. -/
theorem Before.congr (h : Before u c m) (hslot : m'.slot = m.slot) (hval : m'.val = m.val)
    (huser : m'.user = m.user) (hpins : m'.pins = m.pins) (hstart : m'.qStart = m.qStart)
    (hend : m'.qEnd = m.qEnd) (hsend : m'.senderId = m.senderId)
    (hrecv : m'.receiverId = m.receiverId) : Before u c m' := by
  refine ⟨⟨h.refed, fun hkind => ?_, h.next.congr huser hstart hend hsend hrecv⟩, ?_, ?_⟩
  · rw [Guard, hval, huser, hpins]
    exact h.link hkind
  · rw [hval]
    exact h.val
  · rw [Settled, hslot, hval, huser]
    exact h.settled

theorem setRedo_self {r : RedoLog} : (m.setRedo u i r).redo u i = r := by
  simp [Mem.setRedo]

theorem Logged.setRedo {r : RedoLog} (h : Logged u m) (hle : r.curEra ≤ m.era u u)
    (hplace : r.curEra = 0 ∨ r.curEra % redoCachelineCnt = i) : Logged u (m.setRedo u i r) := by
  intro j
  by_cases hj : j = i
  · rw [hj, setRedo_self]
    exact ⟨hle, hplace⟩
  · have hne : (m.setRedo u i r).redo u j = m.redo u j := by
      simp [Mem.setRedo, hj]
    rw [hne]
    exact h j

theorem Next.After.setRefInfo (h : next.After u m) : next.After u (m.setRefInfo o info) := by
  cases next with
  | done => exact h
  | sent q => exact ⟨⟨h.1.own, h.1.send, h.1.room⟩, h.2⟩
  | got q | emptied q => exact ⟨⟨h.1.own, h.1.recv, h.1.nonempty⟩, h.2⟩

theorem finish_frame : (m.finish u c).era = m.era ∧ (m.finish u c).redo = m.redo ∧
    (m.finish u c).posted = m.posted ∧ (m.finish u c).refInfo = m.refInfo := by
  rw [Mem.finish]
  cases c.next <;> exact ⟨rfl, rfl, rfl, rfl⟩

theorem call_moves {op : Op} {pc' : Pc} (h : call u op pc m = some (pc', m')) (hi : Inv m)
    (hat : pc.Holds u m) : Moves u m m' ∧ pc'.Holds u m' := by
  cases pc with
  | idle =>
    simp only [call] at h
    split at h
    · next hids =>
      have hu : u ≠ 0 := Nat.pos_iff_ne_zero.mp hids.1
      have hown : Own u [] m := hat.here hu
      have hholds : ∀ {pc'' : Pc} {m'' : Mem}, m''.era u = m.era u → m''.redo u = m.redo u →
          m''.posted u = m.posted u → pc''.past = false → pc''.At u m'' → pc''.Holds u m'' := by
        intro pc'' m'' hera hredo hposted hpast hat'
        refine ⟨fun h => absurd h (by omega), fun _ i => ?_, fun _ => ?_, fun _ => hat'⟩
        · rw [hera, hredo]
          exact hat.logged hu i
        · rw [hera, hposted, hpast]
          exact hat.posted hu
      cases op with
      | linkReference a b =>
        dsimp only at h
        split at h
        · next hcond =>
          obtain ⟨hempty, hunused, hne, hfree⟩ := hcond
          obtain ⟨hfree', hpins⟩ := of_decide_eq_true hunused
          cases h
          have hab : Slot.ref b ≠ .ref a := by
            intro heq
            rw [heq] at hne
            exact hne hempty
          refine ⟨(Relation.ReflTransGen.single (.claim hu hfree' hpins nofun)).tail .pin,
            hholds rfl rfl rfl rfl ⟨⟨hne, fun _ => ⟨(hi.rest _ hfree).symm, .inr ⟨?_, ?_⟩⟩,
              hown.claim, a, rfl⟩, (hi.rest _ hfree').symm.trans hempty, ?_⟩⟩
          · exact (setUser_ne hab).trans hfree
          · show u ∈ Mem.pins (Mem.pin _ u (.ref b)) (.ref b)
            rw [pin_self]
            exact .head _
          · exact Settled.claim hi (fun s hs => nomatch (hown s).mp hs) hfree'
        · cases h
      | unlinkReference a =>
        dsimp only at h
        split at h
        · next hcond =>
          obtain ⟨hne, hunused⟩ := hcond
          obtain ⟨hfree, hpins⟩ := of_decide_eq_true hunused
          cases h
          exact ⟨.single (.claim hu hfree hpins nofun), hholds rfl rfl rfl rfl
            ⟨⟨hne, nofun, hown.claim, a, rfl⟩, (hi.rest _ hfree).symm,
              Settled.claim hi (fun s hs => nomatch (hown s).mp hs) hfree⟩⟩
        · cases h
      | sentTo q b =>
        dsimp only at h
        split at h
        · next hcond =>
          obtain ⟨hsend, hne, hfree⟩ := hcond
          cases h
          refine ⟨.single .pin, hholds rfl rfl rfl rfl ⟨hown, hsend, hne, hfree, ?_⟩⟩
          rw [pin_self]
          exact .head _
        · cases h
      | cxlUnwrap q a generic =>
        dsimp only at h
        split at h
        · next hcond =>
          obtain ⟨hrecv, hempty, hunused⟩ := hcond
          obtain ⟨hfree, hpins⟩ := of_decide_eq_true hunused
          cases h
          exact ⟨.single (.claim hu hfree hpins nofun), hholds rfl rfl rfl rfl
            ⟨hown.claim, hrecv, (hi.rest _ hfree).symm.trans hempty,
              Settled.claim hi (fun s hs => nomatch (hown s).mp hs) hfree⟩⟩
        · cases h
    · cases h
  | _ => cases h

theorem run_moves {pc' : Pc} (h : run u pc m = some (pc', m')) (hi : Inv m) (hat : pc.Holds u m)
    (hfit : pc.fits = true) : Moves u m m' ∧ pc'.Holds u m' := by
  by_cases hpc : pc = .idle
  · subst hpc
    cases h
  have hids : ¬ (u = 0 ∨ maxThread < u) := fun h => hpc (hat.ids h)
  have hu : u ≠ 0 := fun h => hids (.inl h)
  have hhere := hat.here hu
  have hstep : ∀ {pc'' : Pc} {m'' : Mem}, m''.era u u = m.era u u → m''.redo u = m.redo u →
      m''.posted u = m.posted u → pc''.past = pc.past → pc''.At u m'' → pc''.Holds u m'' :=
    fun h1 h2 h3 h4 h5 => hat.step hpc h1 h2 h3 h4 h5
  cases pc with
  | idle => cases h
  | sendRead q tbr =>
    cases h
    obtain ⟨hown, hsend, hne, hfree, hpin⟩ := hhere
    exact ⟨.refl, hstep rfl rfl rfl rfl ⟨hown, hsend, hne, (hi.rest _ hfree).symm, .inr ⟨hfree, hpin⟩⟩⟩
  | sendFull q offset tbr =>
    obtain ⟨hown, hsend, hne, hguard⟩ := hhere
    simp only [run] at h
    split at h
    · cases h
      exact ⟨.single .unpin, hstep rfl rfl rfl rfl hown⟩
    · next hroom =>
      cases h
      exact ⟨.refl, hstep rfl rfl rfl rfl ⟨hown, hsend, hne, hguard, hroom⟩⟩
  | sendWrap q offset tbr =>
    simp only [run] at h
    split at h
    · cases h
      exact ⟨.single .unpin, hstep rfl rfl rfl rfl hhere.1⟩
    · next hfull =>
      cases h
      obtain ⟨hmove, hbefore⟩ := send_claim hi hu hhere hfull
      exact ⟨.single hmove, hstep rfl rfl rfl rfl hbefore⟩
  | sendNext q =>
    cases h
    obtain ⟨⟨hsend, hval⟩, hsettled⟩ := hhere
    exact ⟨.single (.sendNext hsend.own.head hsend.send hsend.room (hsettled _ hsend.own.head) hval),
      hstep rfl rfl rfl rfl (hsend.own.release nofun hu)⟩
  | recvEmpty q a generic =>
    obtain ⟨hown, hrecv, hval, hsettled⟩ := hhere
    simp only [run] at h
    split at h
    · cases h
      exact ⟨.single (.release hu hown.head (hsettled _ hown.head)),
        hstep rfl rfl rfl rfl (hown.release nofun hu)⟩
    · next hne =>
      cases h
      exact ⟨.refl, hstep rfl rfl rfl rfl ⟨hown, hrecv, hval, hsettled, hne⟩⟩
  | recvSlot q a generic =>
    simp only [run] at h
    split at h
    · cases h
      obtain ⟨hown, _, _, hsettled, _⟩ := hhere
      exact ⟨.single (.release hu hown.head (hsettled _ hown.head)),
        hstep rfl rfl rfl rfl (hown.release nofun hu)⟩
    · next hslot =>
      cases h
      obtain ⟨hmove, hread⟩ := recv_claim hi hu hhere hslot
      cases generic with
      | true | false => exact ⟨.single hmove, hstep rfl rfl rfl rfl hread⟩
  | clear q a k =>
    simp only [run] at h
    split at h
    · cases h
      obtain ⟨hrecv, hval, hsettled, hval'⟩ := hhere
      exact ⟨.single .log, fun h => absurd h hids,
        fun _ => (hat.logged hu).setRedo (Nat.zero_le _) (.inl rfl), hat.posted,
        fun _ => ⟨⟨hrecv.own, hrecv.recv, hrecv.nonempty⟩, hval, hsettled, hval'⟩⟩
    · cases h
      exact ⟨.refl, hstep rfl rfl rfl rfl hhere⟩
  | recvRead q a =>
    cases h
    obtain ⟨hrecv, hval, hsettled, hval'⟩ := hhere
    have hslot := hsettled _ hrecv.own.head
    exact ⟨.refl, hstep rfl rfl rfl rfl ⟨⟨by rw [hslot]; exact hval',
      fun _ => ⟨hslot.symm, .inl hrecv.own.head⟩, hrecv, ⟨a, rfl⟩, rfl, rfl⟩, hval, hsettled⟩⟩
  | recvAgain q =>
    cases h
    obtain ⟨⟨hrecv, hval⟩, hsettled⟩ := hhere
    have hslot := hsettled _ hrecv.own.head
    exact ⟨.refl, hstep rfl rfl rfl rfl ⟨⟨by rw [hslot]; exact hval, nofun, hrecv, rfl, rfl⟩,
      hslot.symm, hsettled⟩⟩
  | recvNext q =>
    cases h
    obtain ⟨⟨hrecv, hval⟩, hsettled⟩ := hhere
    exact ⟨.single (.recvNext hrecv.own.head hrecv.recv hrecv.nonempty
      (hsettled _ hrecv.own.head) hval), hstep rfl rfl rfl rfl (hrecv.own.release nofun hu)⟩
  | load c =>
    cases h
    exact ⟨.refl, hstep rfl rfl rfl rfl ⟨hhere, hi.lenum _⟩⟩
  | note c info =>
    cases h
    obtain ⟨hbefore, hlenum⟩ := hhere
    split
    · next hlt =>
      have hne : info.lcid ≠ u := by
        intro heq
        have hposted : m.posted u < m.era u u := hat.posted hu
        rw [heq] at hlt hlenum
        have := hlenum (Nat.pos_of_ne_zero hu)
        omega
      refine ⟨.single (.note hne hlt.le hlenum), hstep (setEra_ne fun h => hne h.2.symm) rfl rfl rfl
        ⟨hbefore.congr rfl rfl rfl rfl rfl rfl rfl rfl, fun _ => ?_⟩⟩
      rw [setEra_self]
    · next hle => exact ⟨.refl, hstep rfl rfl rfl rfl ⟨hbefore, fun _ => Nat.not_lt.mp hle⟩⟩
  | record c info =>
    cases h
    obtain ⟨hbefore, hknown⟩ := hhere
    exact ⟨.single .log, fun h => absurd h hids,
      fun _ => (hat.logged hu).setRedo le_rfl (.inr rfl), hat.posted,
      fun _ => ⟨hbefore.congr rfl rfl rfl rfl rfl rfl rfl rfl, hknown, rfl, setRedo_self⟩⟩
  | cas c info curEra =>
    simp only [run] at h
    split at h
    · next heq =>
      cases h
      subst heq
      obtain ⟨hmove, hholds⟩ := cas_moves hat hfit
      exact ⟨.single hmove, hholds⟩
    · cases h
      exact ⟨.refl, hstep rfl rfl rfl rfl hhere.1⟩
  | write c info =>
    cases h
    obtain ⟨hpost, hslot, hrest⟩ := hhere
    rw [← hpost.val]
    refine ⟨.single (.write hu hpost.user), hstep rfl rfl rfl rfl
      ⟨⟨⟨hpost.refed, hpost.link, hpost.next.congr rfl rfl rfl rfl rfl⟩, hpost.val, hpost.pos,
        hpost.record, hpost.visible, hpost.last⟩, fun s hs => ?_⟩⟩
    by_cases hne : s = c.ref
    · rw [hne]
      exact update_self ..
    · exact (update_of_ne hne ..).trans (hrest s hs hne)
  | bump c info =>
    cases h
    obtain ⟨hpost, hsettled⟩ := hhere
    obtain ⟨hmoves, hafter, hsettled'⟩ := bump_moves hu (hat.posted hu) hpost hsettled
    obtain ⟨hera, hredo, hposted, hinfo⟩ :=
      finish_frame
    have hpost' : m.posted u = m.era u u := hat.posted hu
    refine ⟨hmoves, fun h => absurd h hids, fun _ i => ?_, fun _ => ?_, fun _ => ?_⟩
    · rw [hera, hredo, setEra_self]
      exact ⟨(hat.logged hu i).1.trans (Nat.le_succ _), (hat.logged hu i).2⟩
    · have hpast : (if c.kind = .unlinkRef ∧ info.refCnt = 1 then Pc.free c
          else c.next.pc).past = false := by
        split
        · rfl
        · exact Next.pc_past
      rw [hpast, hera, hposted, setEra_self]
      exact Nat.lt_succ_of_le hpost'.le
    · split
      · next hlast =>
        refine ⟨hafter, hsettled', hpost.refed, ?_⟩
        rw [hinfo]
        exact hpost.last hlast.1 hlast.2
      · exact Next.pc_at hafter hsettled'
  | free c =>
    cases h
    obtain ⟨hafter, hsettled, _, hcnt, hlcid⟩ := hhere
    exact ⟨.single (.free hcnt hlcid), hstep rfl rfl rfl Next.pc_past
      (Next.pc_at hafter.setRefInfo hsettled)⟩

theorem holds_of_reach {s : Sys Mem Pc} (h : machine.Reach bounded fresh s) :
    Machine.Holds Inv (fun u pc m => pc.Holds u m) s := by
  refine Machine.Reach.invariant (fun s hs => ?_) (fun s a l m hs hfit ha => ?_) h
  · obtain ⟨hidle, hval, hposted, hunused, hredo, hqueue, hbuffer, hsparse, hcount, hlenum, hseen⟩ := hs
    refine ⟨⟨fun o ho => ?_, ?_, fun t _ => ?_, fun o ho => ?_, fun j k hjk hk => ?_, fun q => ?_,
      fun q i _ => ?_, fun q i hne => absurd (hunused _).1 hne, fun q i => (hunused _).2⟩, fun u => ?_⟩
    · rw [hval]
      exact hcount o ho
    · rw [hval]
      exact hsparse
    · rw [hval]
    · have := hlenum o _ ho rfl
      rw [← hposted _ ho] at this
      exact Nat.le_of_lt_succ this
    · have := hseen j k hjk hk
      rw [← hposted k hk] at this
      exact Nat.le_of_lt_succ this
    · rw [(hqueue q).1, (hqueue q).2]
      exact ⟨by decide, by decide⟩
    · rw [hval, hbuffer, Mem.inRing, (hqueue q).1, (hqueue q).2]
      simp
    · rw [hidle u]
      refine ⟨fun _ => rfl, fun _ i => ?_, fun hu => ?_, fun hu t => ?_⟩
      · rw [hredo]
        exact ⟨Nat.zero_le _, .inl rfl⟩
      · show s.mem.posted u < s.mem.era u u
        rw [← hposted u (Nat.pos_of_ne_zero hu)]
        exact Nat.lt_succ_self _
      · rw [(hunused t).1]
        exact iff_of_false hu.symm (by simp)
  · obtain ⟨hi, hat⟩ := hs
    have hmoves : Moves a.thread s.mem m ∧ l.Holds a.thread m := by
      cases a with
      | call u op => exact call_moves ha hi (hat u)
      | run u => exact run_moves ha hi (hat u) hfit
    exact ⟨hmoves.1.inv hi, hmoves.2, fun w hw => (hat w).kept fun hw0 => hmoves.1.kept hi hw hw0⟩

/-! ## Recovery -/

theorem foldl_newest (redo : Nat → RedoLog) : ∀ (l : List Nat) (k : Nat), ∃ i, (i = k ∨ i ∈ l) ∧
      l.foldl (fun r i => if (redo i).curEra > r.curEra then redo i else r) (redo k) = redo i ∧
      (redo k).curEra ≤ (redo i).curEra ∧ ∀ j ∈ l, (redo j).curEra ≤ (redo i).curEra
  | [], k => ⟨k, .inl rfl, rfl, le_rfl, nofun⟩
  | j :: l, k => by
    rw [List.foldl_cons]
    split
    · next hlt =>
      obtain ⟨i, hmem, heq, hle, hall⟩ := foldl_newest redo l j
      refine ⟨i, ?_, heq, by omega, fun j' hj' => ?_⟩
      · rcases hmem with rfl | hmem
        · exact .inr (.head _)
        · exact .inr (.tail _ hmem)
      · rcases List.mem_cons.mp hj' with rfl | hj'
        · exact hle
        · exact hall j' hj'
    · next hnot =>
      obtain ⟨i, hmem, heq, hle, hall⟩ := foldl_newest redo l k
      refine ⟨i, hmem.imp_right (.tail _), heq, hle, fun j' hj' => ?_⟩
      rcases List.mem_cons.mp hj' with rfl | hj'
      · omega
      · exact hall j' hj'

theorem newestRedo_spec (redo : Nat → RedoLog) : ∃ i, newestRedo redo = redo i ∧
    ∀ j, j < redoCachelineCnt → (redo j).curEra ≤ (redo i).curEra := by
  obtain ⟨i, _, heq, hle, hall⟩ :=
    foldl_newest redo (List.range' 1 (redoCachelineCnt - 1)) 0
  refine ⟨i, heq, fun j hj => ?_⟩
  rcases Nat.eq_zero_or_pos j with rfl | hpos
  · exact hle
  · refine hall j (List.mem_range'_1.mpr ?_)
    omega

theorem Logged.newestRedo {r : RedoLog} (h : Logged u m)
    (hr : m.redo u (m.era u u % redoCachelineCnt) = r) (he : r.curEra = m.era u u)
    (hpos : m.era u u ≠ 0) : newestRedo (m.redo u) = r := by
  obtain ⟨i, heq, hall⟩ := newestRedo_spec (m.redo u)
  have hmax := hall (m.era u u % redoCachelineCnt) (Nat.mod_lt _ (by decide))
  rw [hr, he] at hmax
  obtain ⟨hle, hplace⟩ := h i
  have hi : i = m.era u u % redoCachelineCnt := by
    rcases hplace with h0 | hplace
    · omega
    · rw [← hplace, le_antisymm hle hmax]
  rw [heq, hi, hr]

theorem foldl_maxEra {t B : Nat} : ∀ (l : List Nat) (e : Nat), e ≤ B →
    (∀ j, j ≠ t → m.era j t ≤ B) →
    let r := l.foldl (fun e j => if j = t then e else if m.era j t > e then m.era j t else e) e
    e ≤ r ∧ r ≤ B ∧ ∀ j ∈ l, j ≠ t → m.era j t ≤ r
  | [], e, he, _ => ⟨le_rfl, he, nofun⟩
  | j :: l, e, he, hB => by
    intro r
    have hj := hB j
    obtain ⟨h1, h2, h3⟩ := foldl_maxEra l
      (if j = t then e else if m.era j t > e then m.era j t else e) (by split <;> grind) hB
    refine ⟨?_, h2, fun j' hj' hne => ?_⟩
    · refine Nat.le_trans ?_ h1
      split <;> grind
    · rcases List.mem_cons.mp hj' with rfl | hj'
      · refine Nat.le_trans ?_ h1
        rw [if_neg hne]
        split <;> omega
      · exact h3 j' hj' hne

theorem le_maxEra {j B : Nat} (hB : ∀ j, j ≠ t → m.era j t ≤ B) (hj : j < maxThread) (hne : j ≠ t) :
    m.era j t ≤ maxEra m t :=
  (foldl_maxEra (List.range maxThread) 0 (Nat.zero_le B) hB).2.2 j (List.mem_range.mpr hj) hne

theorem maxEra_le {B : Nat} (hB : ∀ j, j ≠ t → m.era j t ≤ B) : maxEra m t ≤ B :=
  (foldl_maxEra (List.range maxThread) 0 (Nat.zero_le B) hB).2.1

theorem redoRefCnt_refInfo : (redoRefCnt t m).refInfo = m.refInfo := by
  rw [redoRefCnt]
  split
  · rfl
  · split <;> split <;> rfl

theorem redoRefCnt_slot_none (h : (newestRedo (m.redo t)).funcId = none) :
    (redoRefCnt t m).slot = m.slot := by
  rw [redoRefCnt]
  simp only [h]

theorem redoRefCnt_slot {kind : Kind} (h : (newestRedo (m.redo t)).funcId = some kind) :
    (redoRefCnt t m).slot = if needRedo m t (newestRedo (m.redo t)) then
      update m.slot (newestRedo (m.redo t)).ref (kind.target (newestRedo (m.redo t)).refed)
    else m.slot := by
  rw [redoRefCnt]
  simp only [h]
  split <;> split <;> rfl

/-- A thread stopped between its CAS and the end of the call: its operation is
finished. -/
theorem redo_of_posted (hi : Inv m) (ht : t ≠ 0) (hlogged : Logged t m)
    (hposted : m.posted t = m.era t t) (h : Posted t c info m) (hharm : harmless t m = true) :
    (redoRefCnt t m).slot = update m.slot c.ref (c.kind.target c.refed) := by
  have hnew : newestRedo (m.redo t) = recordOf c info (m.era t t) :=
    hlogged.newestRedo h.record rfl h.pos
  have hseen : ∀ j, j ≠ t → m.era j t ≤ m.posted t :=
    fun j hj => hi.seen j t hj (Nat.pos_of_ne_zero ht)
  have hneed : needRedo m t (recordOf c info (m.era t t)) = true := by
    refine decide_eq_true ?_
    rcases h.visible with ⟨hl, he⟩ | ⟨j, hj, hjmax, hle⟩
    · exact .inl ⟨hl, he.trans hposted⟩
    · rw [hposted] at hle
      have hlt : j < maxThread := by
        refine Nat.lt_of_le_of_ne hjmax ?_
        rintro rfl
        -- the row of thread 1024 is not read
        simp only [harmless, hnew, recordOf, Nat.lt_irrefl, if_false, Bool.or_eq_true,
          decide_eq_true_eq] at hharm
        rcases hharm with hharm | hharm
        · exact hj hharm.symm
        · omega
      exact .inr (hle.trans (le_maxEra hseen hlt hj))
  have hfunc : (newestRedo (m.redo t)).funcId = some c.kind := by rw [hnew, recordOf]
  rw [redoRefCnt_slot hfunc, hnew, hneed]
  rfl

/-- A thread stopped elsewhere: nothing is replayed that changes a slot. -/
theorem redo_of_not_past (hi : Inv m) (ht : t ≠ 0) (hposted : m.posted t < m.era t t) (hharm : harmless t m = true) :
    (redoRefCnt t m).slot = m.slot := by
  cases hfunc : (newestRedo (m.redo t)).funcId with
  | none => exact redoRefCnt_slot_none hfunc
  | some kind =>
    rw [redoRefCnt_slot hfunc]
    split
    · next hneed =>
      have hlt : (newestRedo (m.redo t)).curEra < m.era t t := by
        -- an era that others have seen is one of a CAS
        rcases of_decide_eq_true hneed with ⟨hl, he⟩ | hle
        · have := hi.lenum (newestRedo (m.redo t)).refed
            (by rw [hl]; exact Nat.pos_of_ne_zero ht)
          rw [hl, he] at this
          omega
        · have := maxEra_le fun j hj => hi.seen j t hj (Nat.pos_of_ne_zero ht)
          omega
      simp only [harmless, hfunc, hlt, if_true, hneed, Bool.not_true, Bool.false_or,
        decide_eq_true_eq] at hharm
      rw [← hharm, update_eq_self]
    · rfl

/-- The slots of a thread hold what the counts say, but for the one it is about to
write. -/
theorem Pc.At.settled (h : pc.At u m) (hs : m.user s = u)
    (hwrite : ∀ c info, pc = .write c info → s ≠ c.ref) : m.slot s = m.val s := by
  cases pc with
  | idle => exact nomatch (h s).mp hs
  | sendRead q tbr | sendFull q offset tbr | sendWrap q offset tbr => exact nomatch (h.1 s).mp hs
  | sendNext q => exact h.2 s hs
  | recvEmpty q a generic => exact h.2.2.2 s hs
  | recvSlot q a generic => exact h.2.2.2.1 s hs
  | clear q a k | recvRead q a => exact h.2.2.1 s hs
  | recvAgain q => exact h.2 s hs
  | recvNext q => exact h.2 s hs
  | load c => exact Before.settled h s hs
  | note c info | record c info | cas c info curEra => exact h.1.settled s hs
  | write c info => exact h.2.2 s hs (hwrite c info rfl)
  | bump c info => exact h.2 s hs
  | free c => exact h.2.1 s hs

/-- What thread `t` has worked on is in order when its record is replayed, and
nothing else changes. -/
theorem redo_spec (hi : Inv m) (ht : t ≠ 0) (h : pc.Holds t m) (hharm : harmless t m = true) :
    (∀ s, m.user s = t → (redoRefCnt t m).slot s = m.val s) ∧
      ∀ s, m.user s ≠ t → (redoRefCnt t m).slot s = m.slot s := by
  have hhere := h.here ht
  have hposted := h.posted ht
  by_cases hpast : pc.past = true
  · cases pc with
    | write c info =>
      obtain ⟨hpost, _, hrest⟩ := hhere
      have hredo := redo_of_posted hi ht (h.logged ht) hposted hpost hharm
      rw [hredo]
      refine ⟨fun s hs => ?_, fun s hs => update_of_ne ?_ ..⟩
      · rw [update_apply]
        split
        · next hsr => rw [hsr, hpost.val]
        · next hsr => exact hrest s hs hsr
      · rintro rfl
        exact hs hpost.user
    | bump c info =>
      obtain ⟨hpost, hsettled⟩ := hhere
      have hredo := redo_of_posted hi ht (h.logged ht) hposted hpost hharm
      rw [hredo]
      refine ⟨fun s hs => ?_, fun s hs => update_of_ne ?_ ..⟩
      · rw [update_apply]
        split
        · next hsr => rw [hsr, hpost.val]
        · exact hsettled s hs
      · rintro rfl
        exact hs hpost.user
    | _ => cases hpast
  · rw [if_neg hpast] at hposted
    rw [redo_of_not_past hi ht hposted hharm]
    refine ⟨fun s hs => hhere.settled hs fun c info heq => ?_, fun _ _ => rfl⟩
    rw [heq] at hpast
    exact absurd rfl hpast

theorem val_at_rest {s : Sys Mem Pc} (h : machine.Reach bounded fresh s)
    (hidle : ∀ w, s.loc w = .idle) : s.mem.val = s.mem.slot := by
  obtain ⟨hi, hat⟩ := holds_of_reach h
  funext x
  refine (hi.rest x ?_).symm
  by_contra hx
  have hhere := (hat (s.mem.user x)).here hx
  rw [hidle] at hhere
  exact nomatch (hhere x).mp rfl

/-- Thread `t` has stopped, and what its records have for recovery does no harm. When
recovery has replayed the newest of them, the count of every object that no other
thread is inside a call on is the number of slots that hold it. -/
theorem counts_right_after_redo {s : Sys Mem Pc} (h : machine.Reach bounded fresh s) {t o : Nat}
    (ht : 1 ≤ t) (hharm : harmless t s.mem = true) (ho : o ≠ 0)
    (hother : ∀ w, w ≠ t → ¬ (s.loc w).inside o) :
    ((redoRefCnt t s.mem).refInfo o).refCnt = tally (redoRefCnt t s.mem).slot o := by
  obtain ⟨hi, hat⟩ := holds_of_reach h
  have ht0 : t ≠ 0 := Nat.pos_iff_ne_zero.mp ht
  obtain ⟨hmine, hrest⟩ := redo_spec hi ht0 (hat t) hharm
  rw [redoRefCnt_refInfo, hi.count o ho]
  refine (tally_congr fun x => ?_).symm
  by_cases hxt : s.mem.user x = t
  · rw [hmine x hxt]
  · rw [hrest x hxt]
    by_cases hx0 : s.mem.user x = 0
    · rw [hi.rest x hx0]
    · -- another thread works on the slot, with another object
      have hhere := (hat (s.mem.user x)).here hx0
      have hnot := hother (s.mem.user x) hxt
      cases hpc : s.loc (s.mem.user x) with
      | write c info =>
        rw [hpc] at hhere hnot
        obtain ⟨hpost, hslot, hsettled⟩ := hhere
        by_cases hxr : x = c.ref
        · rw [hxr, hslot, hpost.val]
          have hne : c.refed ≠ o := hnot
          cases c.kind with
          | linkRef => exact iff_of_false ho.symm hne
          | unlinkRef => exact iff_of_false hne ho.symm
        · rw [hsettled x rfl hxr]
      | _ => rw [hhere.settled rfl (fun c info heq => by rw [hpc] at heq; cases heq)]

/-! ### Two runs -/

/-- Object 5 has two references. Threads 1 and 2 are the ends of all queues. -/
def twoRefs : Sys Mem Pc where
  mem :=
    { slot := update (update (fun _ => 0) (.ref 1) 5) (.ref 3) 5
      refInfo := update (fun _ => ⟨0, 0, 0⟩) 5 ⟨1, 2, 1⟩
      era := fun j k => if j = k then 2 else 0
      redo := fun _ _ => .zero
      qStart := fun _ => 0
      qEnd := fun _ => 0
      senderId := fun _ => 1
      receiverId := fun _ => 2
      leaking := fun _ => false
      val := update (update (fun _ => 0) (.ref 1) 5) (.ref 3) 5
      posted := fun _ => 1
      user := fun _ => 0
      pins := fun _ => [] }
  loc := fun _ => .idle

theorem fresh_twoRefs : fresh twoRefs := by
  have hnone : Sparse 0 (fun _ : Slot => (0 : Nat)) := by
    refine Set.Finite.subset Set.finite_empty fun s hs => ?_
    exact hs rfl
  have htwo : tally twoRefs.mem.slot 5 = 2 := by
    have h1 : tally (update (fun _ => 0) (Slot.ref 1) 5) 5 = 1 := by
      rw [tally_update_add hnone (by decide) (by decide), tally_eq_zero fun _ => by decide]
    show tally (update (update _ _ _) _ _) _ = _
    rw [tally_update_add (hnone.update) (by decide) (by decide), h1]
  have hzero : ∀ o, o ≠ 0 → o ≠ 5 → tally twoRefs.mem.slot o = 0 := by
    intro o h0 h5
    show tally (update (update _ _ _) _ _) _ = _
    rw [tally_update_ne _ (Ne.symm h5), tally_update_ne _ (Ne.symm h5),
      tally_eq_zero fun _ => Ne.symm h0]
    · exact Ne.symm h0
    · exact Ne.symm h0
  refine ⟨fun _ => rfl, rfl, fun k _ => ?_, fun _ => ⟨rfl, rfl⟩, fun _ _ => rfl, fun _ => ⟨rfl, rfl⟩,
    fun _ _ => rfl, hnone.update.update, fun o ho => ?_, fun o k hk hl => ?_, fun j k hjk _ => ?_⟩
  · simp [twoRefs]
  · by_cases h5 : o = 5
    · rw [h5, htwo]
      rfl
    · rw [hzero o ho h5]
      simp [twoRefs, h5]
  · by_cases h5 : o = 5
    · subst h5
      simp [twoRefs]
    · simp [twoRefs, h5] at hl
      omega
  · simp [twoRefs, hjk]

/-- A call of thread `u` that takes `n` accesses. -/
def whole (u : Nat) (op : Op) (n : Nat) : List (Act Op) :=
  .call u op :: List.replicate n (.run u)

/-- Thread 1 sends the object and stops right after its CAS; thread 2 gives up its
reference. -/
def stopsInside : List (Act Op) := whole 1 (.sentTo 0 1) 7 ++ whole 2 (.unlinkReference 3) 6

theorem stopsInside_run : (machine.runUnder bounded stopsInside twoRefs).any fun s =>
      harmless 1 s.mem = true ∧ s.loc 2 = .idle ∧ (s.loc 1).past = true ∧
        (s.mem.refInfo 5).lcid = 2 ∧ s.mem.slot (.buffer 0 0) = 0 ∧
        (redoRefCnt 1 s.mem).slot (.buffer 0 0) = 5 := by
  decide +kernel

theorem counts_right_after_redo_stopsInside :
    ∃ s : Sys Mem Pc, machine.Reach bounded fresh s ∧ harmless 1 s.mem = true ∧
      (∀ w, w ≠ 1 → ¬ (s.loc w).inside 5) ∧ s.mem.slot (.buffer 0 0) = 0 ∧
      (redoRefCnt 1 s.mem).slot (.buffer 0 0) = 5 ∧
      ((redoRefCnt 1 s.mem).refInfo 5).refCnt = tally (redoRefCnt 1 s.mem).slot 5 := by
  obtain ⟨s, hs, hreach, hharm, h2, _, _, hslot, hredo⟩ :=
    Machine.reach_of_any fresh fresh_twoRefs stopsInside_run
  have hother : ∀ w, w ≠ 1 → ¬ (s.loc w).inside 5 := by
    intro w hw
    have hidle : s.loc w = .idle := by
      by_cases hw2 : w = 2
      · rw [hw2]
        exact h2
      · refine (Machine.runUnder_loc (fun a ha => ?_) hs).trans rfl
        have hall : ∀ a ∈ stopsInside, a.thread = 1 ∨ a.thread = 2 := by decide
        rcases hall a ha with h | h <;> omega
    rw [hidle]
    exact id
  exact ⟨s, hreach, hharm, hother, hslot, hredo,
    counts_right_after_redo hreach (by decide) hharm (by decide) hother⟩

/-- Thread 1 sends the object and thread 2 receives it, both to the end. -/
def sentAndReceived : List (Act Op) := whole 1 (.sentTo 0 1) 10 ++ whole 2 (.cxlUnwrap 0 2 false) 17

theorem sentAndReceived_run : (machine.runUnder bounded sentAndReceived twoRefs).any fun s =>
      s.loc 1 = .idle ∧ s.loc 2 = .idle ∧ s.mem.slot (.buffer 0 0) = 0 ∧
        newestRedo (s.mem.redo 1) = ⟨some .linkRef, 2, 2, .buffer 0 0, 5⟩ ∧
        needRedo s.mem 1 ⟨some .linkRef, 2, 2, .buffer 0 0, 5⟩ = true := by
  decide +kernel

/-- No operation is under way, and the count is right until recovery fills the place
in the queue again that the receiver has emptied. -/
theorem counts_wrong_after_redo :
    ∃ (s : Sys Mem Pc) (t o : Nat), machine.Reach Machine.free fresh s ∧ (∀ w, s.loc w = .idle) ∧
      1 ≤ t ∧ t ≤ maxThread ∧ o ≠ 0 ∧ (s.mem.refInfo o).refCnt = tally s.mem.slot o ∧
      ((redoRefCnt t s.mem).refInfo o).refCnt ≠ tally (redoRefCnt t s.mem).slot o := by
  obtain ⟨s, hs, hreach, h1, h2, hslot, hnew, hneed⟩ :=
    Machine.reach_of_any fresh fresh_twoRefs sentAndReceived_run
  have hidle : ∀ w, s.loc w = .idle :=
    Machine.runUnder_rest_of_mem [1, 2] (fun _ => rfl) (by decide) hs (by simp [h1, h2])
  have hcount : (s.mem.refInfo 5).refCnt = tally s.mem.slot 5 := by
    rw [← val_at_rest hreach hidle]
    exact (holds_of_reach hreach).1.count 5 (by decide)
  have hredo : (redoRefCnt 1 s.mem).slot = update s.mem.slot (.buffer 0 0) 5 := by
    have hfunc : (newestRedo (s.mem.redo 1)).funcId = some .linkRef := by rw [hnew]
    rw [redoRefCnt_slot hfunc, hnew, hneed]
    rfl
  refine ⟨s, 1, 5, hreach.mono fun _ _ _ => trivial, hidle, by decide, by decide, by decide, hcount, ?_⟩
  have hsparse : Sparse 0 s.mem.slot := by
    rw [← val_at_rest hreach hidle]
    exact (holds_of_reach hreach).1.sparse
  rw [redoRefCnt_refInfo, hredo, tally_update_add hsparse (by decide) (by rw [hslot]; decide), hcount]
  omega

/-- When no call is under way, every count is the number of slots that hold the object. -/
theorem counts_right_at_rest {s : Sys Mem Pc} (h : machine.Reach bounded fresh s)
    (hidle : ∀ w, s.loc w = .idle) {o : Nat} (ho : o ≠ 0) :
    (s.mem.refInfo o).refCnt = tally s.mem.slot o := by
  rw [← val_at_rest h hidle]
  exact (holds_of_reach h).1.count o ho

theorem counts_right_at_rest_sentAndReceived : ∃ s : Sys Mem Pc, machine.Reach bounded fresh s ∧
    (∀ w, s.loc w = .idle) ∧ (s.mem.refInfo 5).refCnt = tally s.mem.slot 5 := by
  obtain ⟨s, hs, hreach, h1, h2, -⟩ :=
    Machine.reach_of_any fresh fresh_twoRefs sentAndReceived_run
  have hidle := Machine.runUnder_rest_of_mem [1, 2] (fun _ => rfl) (by decide) hs (by simp [h1, h2])
  exact ⟨s, hreach, hidle, counts_right_at_rest hreach hidle (by decide)⟩

end ShmPcc.CxlRefCount
