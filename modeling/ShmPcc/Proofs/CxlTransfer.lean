import ShmPcc.Proofs.CxlRefCount
import ShmPcc.Ref.CxlTransfer

/-!
# What the receiver gets is what was sent

The place `k % 16` of a queue belongs to message `k` from before `end` passes it until
`start` does. The receiver has a reference of its own to a message before it empties the
place, and the place is emptied before `start` moves, so between the two the messages
received are one more than the places passed; `Pc.holding` says when. The sender writes
at `end` only, and finds the place empty.
-/

namespace ShmPcc.CxlRefCount

open Function

variable {m m' : Mem} {u w q o : Nat} {x x' : Transfers} {b : Bool} {pc pc' : Pc} {c : Call}

/-- The receiver has got the message at the start of queue `q`, which has not moved yet. -/
def Pc.holding (q : Nat) : Pc → Bool
  | .recvAgain q' | .recvNext q' => q' = q
  | .load c | .note c _ | .record c _ | .cas c _ _ | .write c _ | .bump c _ | .free c =>
    c.next = .emptied q
  | _ => false

/-- Object `o` is the one that is being sent to queue `q`. -/
def Pc.Passing (q : Nat) (m : Mem) (o : Nat) : Pc → Prop
  | .sendFull q' offset _ | .sendWrap q' offset _ => q' = q → offset = o
  | .sendNext q' => q' = q → m.val (.buffer q (m.qEnd q)) = o
  | .load c | .note c _ | .record c _ | .cas c _ _ | .write c _ | .bump c _ | .free c =>
    c.next = .sent q → c.refed = o
  | _ => True

/-- Only `unlink_reference` frees. -/
def Pc.Freeing : Pc → Prop
  | .free c => c.next = .done ∨ ∃ q, c.next = .emptied q
  | _ => True

/-- The queue and its history; `b` is whether the receiver holds the first message. -/
structure Ring (q : Nat) (m : Mem) (x : Transfers) (b : Bool) : Prop where
  received : x.received <+: x.sent
  head : x.received.length = x.head + b.toNat
  room : x.sent.length ≤ x.head + 15
  qStart : m.qStart q = x.head % 16
  qEnd : m.qEnd q = x.sent.length % 16
  val : ∀ k o, x.received.length ≤ k → x.sent[k]? = some o → m.val (.buffer q (k % 16)) = o
  nonzero : ∀ o ∈ x.sent, o ≠ 0

theorem Ring.congr (h : Ring q m x b) (hsent : x'.sent = x.sent) (hreceived : x'.received = x.received)
    (hhead : x'.head = x.head) (hstart : m'.qStart q = m.qStart q) (hend : m'.qEnd q = m.qEnd q)
    (hval : ∀ k, x.received.length ≤ k → k < x.sent.length →
      m'.val (.buffer q (k % 16)) = m.val (.buffer q (k % 16))) : Ring q m' x' b := by
  refine ⟨?_, ?_, ?_, ?_, ?_, ?_, ?_⟩
  · rw [hsent, hreceived]
    exact h.received
  · rw [hreceived, hhead]
    exact h.head
  · rw [hsent, hhead]
    exact h.room
  · rw [hstart, hhead]
    exact h.qStart
  · rw [hend, hsent]
    exact h.qEnd
  · intro k o hk ho
    rw [hreceived] at hk
    rw [hsent] at ho
    rw [hval k hk (List.getElem?_eq_some_iff.mp ho).1]
    exact h.val k o hk ho
  · rw [hsent]
    exact h.nonzero

/-- With `start ≠ end` the place at the start has a message, the next to be received. -/
theorem Ring.next (h : Ring q m x false) (hne : m.nonempty q) :
    x.sent[x.received.length]? = some (m.val (.buffer q (m.qStart q))) := by
  have hhead := h.head
  have hle := h.received.length_le
  simp only [Bool.toNat_false, Nat.add_zero] at hhead
  rw [Mem.nonempty, h.qStart, h.qEnd] at hne
  have hlt : x.received.length < x.sent.length := by
    rcases Nat.lt_or_eq_of_le hle with hlt | heq
    · exact hlt
    · rw [← heq, hhead] at hne
      exact absurd rfl hne
  have hget := List.getElem?_eq_getElem hlt
  rw [h.qStart, ← hhead, h.val _ _ le_rfl hget]
  exact hget

theorem Ring.sendNext (h : Ring q m x b) (hroom : m.room q)
    (hpassed : m.val (.buffer q (m.qEnd q)) = x.passed) (hne : m.val (.buffer q (m.qEnd q)) ≠ 0)
    (hval : m'.val = m.val) (hstart : m'.qStart q = m.qStart q)
    (hend : m'.qEnd q = (m.qEnd q + 1) % 16) :
    Ring q m' { x with sent := x.sent ++ [x.passed] } b := by
  have hlen := h.room
  have hlt : x.sent.length < x.head + 15 := by
    rw [Mem.room, h.qStart, h.qEnd] at hroom
    omega
  refine ⟨h.received.trans (List.prefix_append ..), h.head, ?_, hstart.trans h.qStart, ?_, ?_, ?_⟩
  · rw [List.length_append, List.length_singleton]
    exact hlt
  · rw [hend, h.qEnd, List.length_append, List.length_singleton]
    omega
  · intro k o hk ho
    rw [hval]
    rcases getElem?_append_one ho with hold | ⟨rfl, rfl⟩
    · exact h.val k o hk hold
    · rw [← h.qEnd]
      exact hpassed
  · intro o ho
    rcases List.mem_append.mp ho with hold | hnew
    · exact h.nonzero o hold
    · rw [List.mem_singleton.mp hnew, ← hpassed]
      exact hne

theorem Ring.got (h : Ring q m x false) (hne : m.nonempty q)
    (ho : m.val (.buffer q (m.qStart q)) = o) (hval : m'.val = m.val)
    (hstart : m'.qStart q = m.qStart q) (hend : m'.qEnd q = m.qEnd q) :
    Ring q m' { x with received := x.received ++ [o] } true := by
  have hnext := h.next hne
  rw [ho] at hnext
  refine ⟨?_, ?_, h.room, hstart.trans h.qStart, hend.trans h.qEnd, ?_, h.nonzero⟩
  · exact prefix_concat_of_getElem? h.received hnext
  · have hhead := h.head
    simp only [Bool.toNat_false, Bool.toNat_true, List.length_append, List.length_singleton] at hhead ⊢
    omega
  · intro k o' hk hk'
    rw [List.length_append] at hk
    rw [hval]
    exact h.val k o' (by omega) hk'

theorem Ring.recvNext (h : Ring q m x true) (hval : m'.val = m.val)
    (hstart : m'.qStart q = (m.qStart q + 1) % 16) (hend : m'.qEnd q = m.qEnd q) :
    Ring q m' { x with head := x.head + 1 } false := by
  have hroom := h.room
  refine ⟨h.received, h.head, ?_, ?_, hend.trans h.qEnd, ?_, h.nonzero⟩
  · dsimp only
    omega
  · rw [hstart, h.qStart]
    dsimp only
    omega
  · rw [hval]
    exact h.val

/-! ## The steps of a thread -/

/-- What thread `u` has to do with queue `q`. -/
structure Side (u q : Nat) (pc : Pc) (m : Mem) (x : Transfers) (b : Bool) : Prop where
  ring : Ring q m x b
  holding : u = m.receiverId q → b = pc.holding q
  passing : u = m.senderId q → pc.Passing q m x.passed

/-- A step of thread `u` keeps its side of queue `q`, and what it says about the others'
is left to them. -/
def SideStep (u q : Nat) (m : Mem) (x : Transfers) (b : Bool) (pc' : Pc) (m' : Mem) (x' : Transfers) :
    Prop :=
  ∃ b', Side u q pc' m' x' b' ∧ (u ≠ m.receiverId q → b' = b) ∧
    (u ≠ m.senderId q → x'.passed = x.passed)

theorem Side.quiet (h : Side u q pc m x b) (hval : m'.val = m.val) (hstart : m'.qStart = m.qStart)
    (hend : m'.qEnd = m.qEnd) (hsend : m'.senderId = m.senderId) (hrecv : m'.receiverId = m.receiverId)
    (hholding : pc'.holding q = pc.holding q)
    (hpassing : u = m.senderId q → pc.Passing q m x.passed → pc'.Passing q m' x.passed) :
    SideStep u q m x b pc' m' x := by
  refine ⟨b, ⟨?_, fun hu => ?_, fun hu => ?_⟩, fun _ => rfl, fun _ => rfl⟩
  · exact h.ring.congr rfl rfl rfl (congrFun hstart q) (congrFun hend q) fun k _ _ => by rw [hval]
  · rw [hrecv] at hu
    rw [hholding]
    exact h.holding hu
  · rw [hsend] at hu
    exact hpassing hu (h.passing hu)

theorem finish_queues : (m.finish u c).val = m.val ∧ (m.finish u c).qStart = m.qStart ∧
    (m.finish u c).qEnd = m.qEnd ∧ (m.finish u c).senderId = m.senderId ∧
    (m.finish u c).receiverId = m.receiverId := by
  rw [Mem.finish]
  cases c.next <;> exact ⟨rfl, rfl, rfl, rfl, rfl⟩

/-- The CAS of a call changes what the counts say of its own slot, and no message that is
still to be received is there. -/
theorem Side.val_cas {kind : Kind} {refed e : Nat} {info : RefInfo}
    (h : Side u q pc m x b) (hbefore : Before u c m) (hholding : pc.holding q = decide (c.next = .emptied q))
    {k : Nat} (hk : x.received.length ≤ k) (hlt : k < x.sent.length) :
    (m.cas u kind c.ref refed info e).val (.buffer q (k % 16)) = m.val (.buffer q (k % 16)) := by
  refine cas_val_ne fun heq => ?_
  have hduring := hbefore.next
  have hroom := h.ring.room
  have hhead := h.ring.head
  cases hnext : c.next with
  | done =>
    rw [hnext] at hduring
    obtain ⟨_, a, ha⟩ := hduring
    rw [ha] at heq
    cases heq
  | sent q' =>
    rw [hnext] at hduring
    obtain ⟨hsending, href, _⟩ := hduring
    rw [href] at heq
    obtain ⟨rfl, hend⟩ := Slot.buffer.inj heq
    have hfree := hsending.room
    rw [h.ring.qEnd] at hend
    omega
  | got q' =>
    rw [hnext] at hduring
    obtain ⟨_, ⟨a, ha⟩, _⟩ := hduring
    rw [ha] at heq
    cases heq
  | emptied q' =>
    rw [hnext] at hduring
    obtain ⟨hreceiving, href, _⟩ := hduring
    rw [href] at heq
    obtain ⟨rfl, hstart⟩ := Slot.buffer.inj heq
    -- the receiver has the message at the start already
    rw [h.holding hreceiving.recv.symm, hholding, hnext, decide_eq_true rfl, Bool.toNat_true] at hhead
    rw [h.ring.qStart] at hstart
    omega

theorem call_side {op : Op} (h : call u op pc m = some (pc', m')) (hside : Side u q pc m x b) :
    SideStep u q m x b pc' m' x ∧ pc'.Freeing ∧ pc = .idle := by
  cases pc with
  | idle =>
    simp only [call] at h
    split at h
    · cases op <;> dsimp only at h <;> split at h <;> cases h <;>
        exact ⟨hside.quiet rfl rfl rfl rfl rfl rfl fun _ _ => by simp [Pc.Passing], trivial, rfl⟩
    · cases h
  | _ => cases h

theorem Next.pc_freeing {next : Next} : next.pc.Freeing := by
  cases next <;> trivial

/-- After its write a call is where its rest begins, with the history of it. -/
theorem bump_side {y : Nat → Transfers} {info : RefInfo} (hat : (Pc.bump c info).At u m)
    (hside : Side u q (.bump c info) m (y q) b) (hm : m' = (m.setEra u u (m.era u u + 1)).finish u c) :
    SideStep u q m (y q) b (if c.kind = .unlinkRef ∧ info.refCnt = 1 then .free c else c.next.pc) m'
        (transfer u (.bump c info) m pc' y q) ∧
      (if c.kind = .unlinkRef ∧ info.refCnt = 1 then Pc.free c else c.next.pc).Freeing := by
  obtain ⟨hposted, hsettled⟩ := hat
  have hduring := hposted.next
  obtain ⟨hval, hstart, hend, hsend, hrecv⟩ : m'.val = m.val ∧ m'.qStart = m.qStart ∧
      m'.qEnd = m.qEnd ∧ m'.senderId = m.senderId ∧ m'.receiverId = m.receiverId := by
    rw [hm]
    exact finish_queues
  simp only [transfer]
  cases hnext : c.next with
  | done =>
    refine ⟨hside.quiet hval hstart hend hsend hrecv ?_ fun _ _ => ?_, ?_⟩
    · split <;> simp [Pc.holding, hnext, Next.pc]
    · split <;> simp [Pc.Passing, hnext, Next.pc]
    · split
      · exact .inl hnext
      · trivial
  | sent q' =>
    rw [hnext] at hduring
    obtain ⟨hsending, href, hkind⟩ := hduring
    rw [if_neg (by simp [hkind])]
    refine ⟨hside.quiet hval hstart hend hsend hrecv ?_ fun _ hpass heq => ?_, trivial⟩
    · simp [Pc.holding, hnext, Next.pc]
    · subst heq
      rw [hval, hend, ← href, hposted.val, hkind]
      exact hpass hnext
  | got q' =>
    rw [hnext] at hduring
    obtain ⟨hreceiving, _, hkind, hvia⟩ := hduring
    rw [if_neg (by simp [hkind])]
    refine ⟨?_, trivial⟩
    dsimp only
    by_cases hq : q = q'
    · subst hq
      -- the object is in the receiver's root reference and still in the queue
      have hslot : m.val (.buffer q (m.qStart q)) = m.slot c.ref := by
        have hlink := (hposted.link hkind).1
        rw [hsettled _ hposted.user, hposted.val, hkind, ← hvia, hlink]
        rfl
      have hb : b = false := by
        rw [hside.holding hreceiving.recv.symm]
        simp [Pc.holding, hnext]
      rw [update_self]
      subst hb
      refine ⟨true, ⟨?_, fun _ => ?_, fun _ => ?_⟩, fun hne => ?_, fun _ => rfl⟩
      · exact hside.ring.got hreceiving.nonempty hslot hval (congrFun hstart q) (congrFun hend q)
      · simp [Pc.holding, Next.pc]
      · trivial
      · exact absurd hreceiving.recv.symm hne
    · rw [update_of_ne hq]
      refine hside.quiet hval hstart hend hsend hrecv ?_ fun _ _ => trivial
      simp [Pc.holding, hnext, Next.pc, Ne.symm hq]
  | emptied q' =>
    refine ⟨hside.quiet hval hstart hend hsend hrecv ?_ fun _ _ => ?_, ?_⟩
    · split <;> simp [Pc.holding, hnext, Next.pc]
    · split <;> simp [Pc.Passing, hnext, Next.pc]
    · split
      · exact .inr ⟨q', hnext⟩
      · trivial

theorem run_side {y : Nat → Transfers} (h : run u pc m = some (pc', m')) (hat : pc.At u m)
    (hfree : pc.Freeing) (hside : Side u q pc m (y q) b) :
    SideStep u q m (y q) b pc' m' (transfer u pc m pc' y q) ∧ pc'.Freeing := by
  cases pc with
  | idle => cases h
  | sendRead q' tbr =>
    cases h
    refine ⟨?_, trivial⟩
    by_cases hq : q = q'
    · subst hq
      refine ⟨b, ⟨?_, fun hu => ?_, fun _ _ => ?_⟩, fun _ => rfl, fun hne => ?_⟩
      · exact hside.ring.congr (by simp [transfer]) (by simp [transfer]) (by simp [transfer]) rfl rfl
          fun _ _ _ => rfl
      · rw [hside.holding hu]
        rfl
      · simp [transfer]
      · exact absurd hat.2.1.symm hne
    · rw [transfer, update_of_ne hq]
      exact hside.quiet rfl rfl rfl rfl rfl rfl fun _ _ heq => absurd heq.symm hq
  | sendFull q' offset tbr =>
    simp only [run] at h
    split at h <;> cases h
    · exact ⟨hside.quiet rfl rfl rfl rfl rfl rfl fun _ _ => trivial, trivial⟩
    · exact ⟨hside.quiet rfl rfl rfl rfl rfl rfl fun _ hp => hp, trivial⟩
  | sendWrap q' offset tbr =>
    simp only [run] at h
    split at h <;> cases h
    · exact ⟨hside.quiet rfl rfl rfl rfl rfl rfl fun _ _ => trivial, trivial⟩
    · refine ⟨hside.quiet rfl rfl rfl rfl rfl ?_ fun _ hp heq => ?_, trivial⟩
      · simp [Pc.holding]
      · exact hp (Next.sent.inj heq)
  | sendNext q' =>
    cases h
    obtain ⟨⟨hsending, hne⟩, _⟩ := hat
    refine ⟨?_, trivial⟩
    by_cases hq : q = q'
    · subst hq
      have hpassed := hside.passing hsending.send.symm rfl
      rw [transfer, update_self]
      refine ⟨b, ⟨?_, fun hu => ?_, fun _ => trivial⟩, fun _ => rfl, fun _ => rfl⟩
      · exact hside.ring.sendNext hsending.room hpassed hne rfl rfl (update_self ..)
      · rw [hside.holding hu]
        rfl
    · rw [transfer, update_of_ne hq]
      refine ⟨b, ⟨?_, fun hu => ?_, fun _ => trivial⟩, fun _ => rfl, fun _ => rfl⟩
      · exact hside.ring.congr rfl rfl rfl rfl (update_of_ne hq ..) fun _ _ _ => rfl
      · rw [hside.holding hu]
        rfl
  | recvEmpty q' a generic | clear q' a k =>
    simp only [run] at h
    split at h <;> cases h <;>
      exact ⟨hside.quiet rfl rfl rfl rfl rfl rfl fun _ _ => trivial, trivial⟩
  | recvSlot q' a generic =>
    simp only [run] at h
    split at h <;> cases h
    · exact ⟨hside.quiet rfl rfl rfl rfl rfl rfl fun _ _ => trivial, trivial⟩
    · cases generic <;>
        exact ⟨hside.quiet rfl rfl rfl rfl rfl rfl fun _ _ => trivial, trivial⟩
  | recvRead q' a | recvAgain q' =>
    cases h
    refine ⟨hside.quiet rfl rfl rfl rfl rfl ?_ fun _ _ => ?_, trivial⟩
    · simp [Pc.holding]
    · simp [Pc.Passing]
  | recvNext q' =>
    cases h
    obtain ⟨⟨hreceiving, _⟩, _⟩ := hat
    refine ⟨?_, trivial⟩
    by_cases hq : q = q'
    · subst hq
      have hb : b = true := by
        rw [hside.holding hreceiving.recv.symm]
        simp [Pc.holding]
      subst hb
      rw [transfer, update_self]
      refine ⟨false, ⟨?_, fun _ => rfl, fun _ => trivial⟩, fun hne => ?_, fun _ => rfl⟩
      · exact hside.ring.recvNext rfl (update_self ..) rfl
      · exact absurd hreceiving.recv.symm hne
    · rw [transfer, update_of_ne hq]
      refine ⟨b, ⟨?_, fun hu => ?_, fun _ => trivial⟩, fun _ => rfl, fun _ => rfl⟩
      · exact hside.ring.congr rfl rfl rfl (update_of_ne hq ..) rfl fun _ _ _ => rfl
      · rw [hside.holding hu]
        simp [Pc.holding, Ne.symm hq]
  | load c | record c info | write c info =>
    cases h
    exact ⟨hside.quiet rfl rfl rfl rfl rfl rfl fun _ hp => hp, trivial⟩
  | note c info =>
    cases h
    refine ⟨?_, trivial⟩
    split <;> exact hside.quiet rfl rfl rfl rfl rfl rfl fun _ hp => hp
  | cas c info curEra =>
    simp only [run] at h
    split at h <;> cases h
    · refine ⟨⟨b, ⟨?_, fun hu => hside.holding hu, fun hu => hside.passing hu⟩, fun _ => rfl,
        fun _ => rfl⟩, trivial⟩
      exact hside.ring.congr rfl rfl rfl rfl rfl fun k hk hlt => hside.val_cas hat.1 rfl hk hlt
    · exact ⟨hside.quiet rfl rfl rfl rfl rfl rfl fun _ hp => hp, trivial⟩
  | bump c info =>
    cases h
    exact bump_side hat hside rfl
  | free c =>
    cases h
    refine ⟨?_, Next.pc_freeing⟩
    rcases hfree with hnext | ⟨q', hnext⟩
    · refine hside.quiet rfl rfl rfl rfl rfl ?_ fun _ _ => ?_
      · simp [Pc.holding, hnext, Next.pc]
      · simp [Pc.Passing, hnext, Next.pc]
    · refine hside.quiet rfl rfl rfl rfl rfl ?_ fun _ _ => ?_
      · simp [Pc.holding, hnext, Next.pc]
      · simp [Pc.Passing, hnext, Next.pc]

/-! ## Runs -/

theorem Pc.Holds.at_of_ne (h : pc.Holds u m) (hpc : pc ≠ .idle) : pc.At u m :=
  h.here fun hu => hpc (h.ids (.inl hu))

/-- Steps of others leave the place alone that the sender has filled. -/
theorem Pc.Passing.kept (h : pc.Passing q m o) (hat : pc.At w m) (hk : Kept w m m') :
    pc.Passing q m' o := by
  cases pc with
  | sendNext q' =>
    intro heq
    subst heq
    rw [hat.1.1.val_kept hk]
    exact h rfl
  | _ => exact h

structure Queued (s : Sys Mem Pc) (y : Nat → Transfers) : Prop where
  ring : ∀ q, Ring q s.mem (y q) ((s.loc (s.mem.receiverId q)).holding q)
  passing : ∀ q, (s.loc (s.mem.senderId q)).Passing q s.mem (y q).passed
  freeing : ∀ u, (s.loc u).Freeing

theorem Queued.step {s : Sys Mem Pc} {y : Nat → Transfers} {a : Act Op} (h : Queued s y)
    (hs : Machine.Holds Inv (fun u pc m => pc.Holds u m) s) (hfit : bounded s a)
    (hact : machine.act s a = some (pc, m)) :
    Queued ⟨m, update s.loc a.thread pc⟩
      (transfer a.thread (s.loc a.thread) s.mem pc y) := by
  obtain ⟨hi, hat⟩ := hs
  have hside : ∀ q, Side a.thread q (s.loc a.thread) s.mem (y q)
      ((s.loc (s.mem.receiverId q)).holding q) := by
    intro q
    refine ⟨h.ring q, fun hu => by rw [← hu], fun hu => ?_⟩
    rw [hu]
    exact h.passing q
  obtain ⟨hmoves, hstep⟩ : Moves a.thread s.mem m ∧ ∀ q,
      SideStep a.thread q s.mem (y q) ((s.loc (s.mem.receiverId q)).holding q) pc m
        (transfer a.thread (s.loc a.thread) s.mem pc y q) ∧ pc.Freeing := by
    cases a with
    | call u op =>
      refine ⟨(call_moves hact hi (hat u)).1, fun q => ?_⟩
      obtain ⟨h1, h2, hidle⟩ := call_side hact (hside q)
      refine ⟨?_, h2⟩
      dsimp only [Act.thread]
      rw [hidle]
      exact h1
    | run u =>
      refine ⟨(run_moves hact hi (hat u) hfit).1, fun q => ?_⟩
      have hpc : s.loc u ≠ .idle := by
        intro hidle
        rw [Machine.act, hidle] at hact
        cases hact
      exact run_side hact ((hat u).at_of_ne hpc) (h.freeing u) (hside q)
  have hids : m.senderId = s.mem.senderId ∧ m.receiverId = s.mem.receiverId := by
    have hk : Kept (a.thread + 1) s.mem m := hmoves.kept hi (by omega) (by omega)
    exact ⟨hk.senderId, hk.receiverId⟩
  refine ⟨fun q => ?_, fun q => ?_, fun u => ?_⟩
  · obtain ⟨b, hb, hsame, _⟩ := (hstep q).1
    dsimp only
    by_cases hu : a.thread = m.receiverId q
    · rw [← hu, update_self, ← hb.holding hu]
      exact hb.ring
    · rw [update_of_ne (Ne.symm hu), hids.2]
      rw [hids.2] at hu
      rw [← hsame hu]
      exact hb.ring
  · obtain ⟨b, hb, _, hsame⟩ := (hstep q).1
    dsimp only
    by_cases hu : a.thread = m.senderId q
    · rw [← hu, update_self]
      exact hb.passing hu
    · rw [update_of_ne (Ne.symm hu), hids.1]
      rw [hids.1] at hu
      rw [hsame hu]
      by_cases hw : s.mem.senderId q = 0
      · rw [(hat _).ids (.inl hw)]
        trivial
      · exact (h.passing q).kept ((hat _).here hw) (hmoves.kept hi (Ne.symm hu) hw)
  · dsimp only
    rw [update_apply]
    split
    · exact (hstep 0).2
    · exact h.freeing u

theorem queued_of_reach {s : Sys (Mem × (Nat → Transfers)) Pc}
    (h : transferMachine.Reach (fun s a => bounded s.forget a) transferFresh s) :
    Queued s.forget s.mem.2 := by
  have hinit : ∀ s, transferFresh s → fresh s.forget ∧ Queued s.forget s.mem.2 := by
    intro s hs
    obtain ⟨hfresh, hnone⟩ := hs
    refine ⟨hfresh, fun q => ?_, fun q => ?_, fun u => ?_⟩
    · obtain ⟨hidle, _, _, _, _, hqueue, _⟩ := hfresh
      rw [hidle, hnone]
      exact ⟨List.prefix_rfl, rfl, by simp [Transfers.none], (hqueue q).1, (hqueue q).2, nofun, nofun⟩
    · rw [hfresh.1]
      trivial
    · rw [hfresh.1]
      trivial
  exact Machine.Reach.recorded hinit
    (fun s a pc m y hr hfit hact hq => hq.step (holds_of_reach hr) hfit hact) h

/-- Every message was sent, in this order, and comes once; what is not received yet is at
most 15, has a count, and is in the queue where the receiver finds it. A place that the
sender writes is empty, and a reference that nobody works on counts. -/
theorem received_in_order {s : Sys (Mem × (Nat → Transfers)) Pc}
    (h : transferMachine.Reach (fun s a => bounded s.forget a) transferFresh s) (q : Nat) :
    (s.mem.2 q).received <+: (s.mem.2 q).sent ∧
      (s.mem.2 q).inFlight.length ≤ messageBufferSize - 1 ∧
      (s.mem.1.qStart q = s.mem.1.qEnd q → (s.mem.2 q).inFlight = []) ∧
      (∀ u a generic, s.loc u = .recvSlot q a generic →
        s.mem.1.slot (.buffer q (s.mem.1.qStart q)) ≠ 0 ∧
          (s.mem.2 q).inFlight.head? = some (s.mem.1.slot (.buffer q (s.mem.1.qStart q)))) ∧
      (∀ u c info, s.loc u = .write c info → c.next = .sent q → s.mem.1.slot c.ref = 0) ∧
      (∀ o ∈ (s.mem.2 q).inFlight, 0 < (s.mem.1.refInfo o).refCnt) ∧
      ∀ t, s.mem.1.user t = 0 → s.mem.1.slot t ≠ 0 →
        0 < (s.mem.1.refInfo (s.mem.1.slot t)).refCnt := by
  have hreach : machine.Reach bounded fresh s.forget := h.forget fun s hs => hs.1
  obtain ⟨hi, hat⟩ := holds_of_reach hreach
  have hring := (queued_of_reach h).ring q
  have hhead := hring.head
  have hroom := hring.room
  have hloc : ∀ u, s.forget.loc u = s.loc u := fun _ => rfl
  have hlen : (s.mem.2 q).inFlight.length = (s.mem.2 q).sent.length - (s.mem.2 q).received.length :=
    List.length_drop
  refine ⟨hring.received, ?_, fun heq => ?_, ?_, ?_, ?_, ?_⟩
  · rw [hlen, messageBufferSize]
    omega
  · rw [← List.length_eq_zero_iff, hlen]
    have heq' := hring.qStart.symm.trans (heq.trans hring.qEnd)
    have hle := hring.received.length_le
    omega
  · intro u a generic hpc
    have hholds := hat u
    rw [hloc, hpc] at hholds
    obtain ⟨hown, hrecv, _, _, hne⟩ := hholds.at_of_ne (by simp)
    have hb : (s.forget.loc (s.forget.mem.receiverId q)).holding q = false := by
      rw [hrecv, hloc, hpc]
      rfl
    rw [hb] at hring
    have hnext := hring.next hne
    -- the receiver has not claimed the place yet, and the sender is not there
    have hfree := hi.user_start hown hrecv hne (by simp)
    have hslot := hi.rest _ hfree
    rw [Transfers.inFlight, List.head?_drop]
    exact ⟨fun h0 => hring.nonzero _ (List.mem_of_getElem? hnext) (hslot.symm.trans h0),
      hnext.trans (congrArg some hslot.symm)⟩
  · intro u c info hpc hnext
    have hholds := hat u
    rw [hloc, hpc] at hholds
    obtain ⟨hposted, hslot, _⟩ := hholds.at_of_ne (by simp)
    have hduring := hposted.next
    rw [hnext] at hduring
    rw [hduring.2.2] at hslot
    exact hslot
  · intro o ho
    obtain ⟨k, hk⟩ := List.mem_iff_getElem?.mp ho
    rw [Transfers.inFlight, List.getElem?_drop] at hk
    have hval := hring.val _ o (Nat.le_add_right ..) hk
    have hne := hring.nonzero o (List.mem_of_getElem? hk)
    exact (hi.count o hne).symm ▸ tally_pos hi.sparse hne hval
  · intro t ht hne
    exact (hi.count _ hne).symm ▸ tally_pos hi.sparse hne (hi.rest t ht).symm

/-! ### Two runs -/

def unsent (s : Sys Mem Pc) : Sys (Mem × (Nat → Transfers)) Pc := ⟨(s.mem, fun _ => .none), s.loc⟩

theorem fresh_unsent {s : Sys Mem Pc} (h : fresh s) : transferFresh (unsent s) := ⟨h, fun _ => rfl⟩

/-- Thread 1 sends the object and gives up its own reference, and thread 2 receives it. -/
def sentAndDropped : List (Act Op) :=
  whole 1 (.sentTo 0 1) 10 ++ whole 1 (.unlinkReference 1) 6 ++ whole 2 (.cxlUnwrap 0 2 false) 9

theorem sentAndDropped_run :
    (transferMachine.runUnder (fun s a => bounded s.forget a) sentAndDropped (unsent twoRefs)).any
      fun s => s.mem.2 0 = ⟨[5], [5], 5, 0⟩ ∧ s.loc 2 = .recvAgain 0 ∧ s.mem.1.slot (.ref 1) = 0 ∧
        s.mem.1.slot (.ref 2) = 5 ∧ s.mem.1.user (.ref 2) = 0 := by
  decide +kernel

theorem received_in_order_sentAndDropped : ∃ s : Sys (Mem × (Nat → Transfers)) Pc,
      transferMachine.Reach (fun s a => bounded s.forget a) transferFresh s ∧
        (s.mem.2 0).received = [5] ∧ (s.mem.2 0).received <+: (s.mem.2 0).sent ∧
        s.mem.1.slot (.ref 1) = 0 ∧ s.mem.1.slot (.ref 2) = 5 ∧ 0 < (s.mem.1.refInfo 5).refCnt := by
  obtain ⟨s, _, hreach, hlog, _, h1, h2, huser⟩ :=
    Machine.reach_of_any transferFresh (fresh_unsent fresh_twoRefs) sentAndDropped_run
  obtain ⟨horder, _, _, _, _, _, hcount⟩ := received_in_order hreach 0
  have hpos := hcount (.ref 2) huser (by rw [h2]; decide)
  rw [h2] at hpos
  exact ⟨s, hreach, by rw [hlog], horder, h1, h2, hpos⟩

/-- Object 5 has as many references as its count can say. -/
def manyRefs : Sys Mem Pc where
  mem :=
    { twoRefs.mem with
      slot := fun s => match s with
        | .ref a => if a < 65535 then 5 else 0
        | .buffer .. => 0
      val := fun s => match s with
        | .ref a => if a < 65535 then 5 else 0
        | .buffer .. => 0
      refInfo := fun o => if o = 5 then ⟨1, 65535, 1⟩ else ⟨0, 0, 0⟩ }
  loc := fun _ => .idle

theorem manyRefs_slot : {s | manyRefs.mem.slot s ≠ 0} = Slot.ref '' Finset.range 65535 ∧
    {s | manyRefs.mem.slot s = 5} = Slot.ref '' Finset.range 65535 := by
  constructor <;> ext s <;> cases s <;> simp [manyRefs]

theorem fresh_manyRefs : fresh manyRefs := by
  obtain ⟨_, _, hposted, hunused, hredo, hqueue, _, _, _, _, hseen⟩ := fresh_twoRefs
  obtain ⟨hheld, h5⟩ := manyRefs_slot
  refine ⟨fun _ => rfl, rfl, hposted, hunused, hredo, hqueue, fun _ _ => rfl, ?_, fun o ho => ?_,
    fun o k hk hl => ?_, hseen⟩
  · rw [Sparse, hheld]
    exact (Finset.finite_toSet _).image _
  · by_cases heq : o = 5
    · subst heq
      rw [tally, h5, Set.ncard_image_of_injective _ fun _ _ => Slot.ref.inj, Set.ncard_coe_finset,
        Finset.card_range]
      rfl
    · rw [tally_eq_zero]
      · simp [manyRefs, heq]
      · intro s hs
        cases s with
        | ref a =>
          simp only [manyRefs] at hs
          split at hs
          · exact heq hs.symm
          · exact ho hs.symm
        | buffer q i => exact ho hs.symm
  · by_cases heq : o = 5
    · subst heq
      simp only [manyRefs, if_true] at hl ⊢
      subst hl
      decide
    · simp only [manyRefs, if_neg heq] at hl
      omega

theorem manyRefs_run :
    (transferMachine.runUnder Machine.free (whole 1 (.sentTo 0 1) 10) (unsent manyRefs)).any
      fun s => s.mem.2 0 = ⟨[5], [], 5, 0⟩ ∧ (s.mem.1.refInfo 5).refCnt = 0 := by
  decide +kernel

/-- One more reference, the one in the queue, and the count of the message is 0. -/
theorem inFlight_uncounted : ∃ (s : Sys (Mem × (Nat → Transfers)) Pc) (q o : Nat),
      transferMachine.Reach Machine.free transferFresh s ∧ o ∈ (s.mem.2 q).inFlight ∧
        (s.mem.1.refInfo o).refCnt = 0 := by
  obtain ⟨s, _, hreach, hlog, hcnt⟩ :=
    Machine.reach_of_any transferFresh (fresh_unsent fresh_manyRefs) manyRefs_run
  refine ⟨s, 0, 5, hreach, ?_, hcnt⟩
  rw [hlog]
  decide

end ShmPcc.CxlRefCount
